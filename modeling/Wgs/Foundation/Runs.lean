import Mathlib.Tactic

/-!
Runs of a labelled transition system.

`next s i s'` says that the input `i` can take the state `s` to `s'`; a deterministic program
has one such `s'` or none.  `Reaches next s₀ is s` is a run from `s₀` along the inputs `is`.
An invariant is carried by `Reaches.invariant`; where it speaks of the inputs served so far, an
abstract state or a history, by `Reaches.induct`.

`Always` and `AtEvery` speak of the states and the steps along one run; a run is good throughout
exactly when its steps meet the condition that keeps the invariant (`always_and_atEvery_iff`,
`always_iff_atEvery`).

A loop that need not end is a function of a bound on its iterations; `Returns f r` says that it
ends with the result `r`.
-/

namespace Foundation

variable {σ ι : Type*}

/-- `s` is reached from `s₀` by serving the inputs of the list in order. -/
inductive Reaches (next : σ → ι → σ → Prop) (s₀ : σ) : List ι → σ → Prop where
  | start : Reaches next s₀ [] s₀
  | step {is : List ι} {i : ι} {s s' : σ} :
      Reaches next s₀ is s → next s i s' → Reaches next s₀ (is ++ [i]) s'

namespace Reaches

variable {next : σ → ι → σ → Prop} {s₀ s s' : σ} {is js : List ι} {i : ι}

/-- **The induction rule of runs**: a property of the inputs served and the state reached, true
at the start and kept by every step, holds of every run. -/
lemma induct {P : List ι → σ → Prop} (hstart : P [] s₀)
    (hstep : ∀ is s i s', Reaches next s₀ is s → P is s → next s i s' → P (is ++ [i]) s')
    (h : Reaches next s₀ is s) : P is s := by
  induction h with
  | start => exact hstart
  | step hr hn ih => exact hstep _ _ _ _ hr ih hn

/-- **The invariant rule**: what holds at the start and is kept by every step holds in every
state reached. -/
lemma invariant {I : σ → Prop} (hstart : I s₀) (hstep : ∀ s i s', I s → next s i s' → I s')
    (h : Reaches next s₀ is s) : I s :=
  h.induct (P := fun _ s => I s) hstart fun _ _ _ _ _ hI hn => hstep _ _ _ hI hn

lemma nil_iff : Reaches next s₀ [] s ↔ s = s₀ := by
  constructor
  · intro h
    generalize hnil : ([] : List ι) = is at h
    cases h with
    | start => rfl
    | step hr hn => simp at hnil
  · rintro rfl
    exact .start

lemma snoc_iff : Reaches next s₀ (is ++ [i]) s' ↔ ∃ s, Reaches next s₀ is s ∧ next s i s' := by
  constructor
  · intro h
    generalize hsnoc : is ++ [i] = js at h
    cases h with
    | start => simp at hsnoc
    | step hr hn =>
        obtain ⟨rfl, rfl⟩ := List.append_singleton_inj.mp hsnoc
        exact ⟨_, hr, hn⟩
  · rintro ⟨s, hr, hn⟩
    exact .step hr hn

/-- Every prefix of a run is a run. -/
lemma of_append (is : List ι) (h : Reaches next s₀ (is ++ js) s) :
    ∃ s', Reaches next s₀ is s' ∧ Reaches next s' js s := by
  induction js using List.reverseRecOn generalizing s with
  | nil => exact ⟨s, by simpa using h, .start⟩
  | append_singleton js i ih =>
      rw [← List.append_assoc] at h
      obtain ⟨t, ht, hnext⟩ := snoc_iff.mp h
      obtain ⟨s', hs', hjs⟩ := ih ht
      exact ⟨s', hs', .step hjs hnext⟩

/-- A run goes on from where another one ends. -/
lemma append (h : Reaches next s₀ is s) (h' : Reaches next s js s') :
    Reaches next s₀ (is ++ js) s' := by
  induction h' with
  | start => simpa using h
  | step _ hn ih =>
      rw [← List.append_assoc]
      exact .step ih hn

/-- A run is a run of a relation that has more steps. -/
lemma mono {next' : σ → ι → σ → Prop} (hmono : ∀ s i s', next s i s' → next' s i s')
    (h : Reaches next s₀ is s) : Reaches next' s₀ is s := by
  induction h with
  | start => exact .start
  | step _ hn ih => exact .step ih (hmono _ _ _ hn)

/-- Where the steps are a function, so is the run. -/
lemma iff_foldlM {f : σ → ι → Option σ} :
    Reaches (fun s i s' => f s i = some s') s₀ is s ↔ is.foldlM f s₀ = some s := by
  induction is using List.reverseRecOn generalizing s with
  | nil => simp [nil_iff, eq_comm]
  | append_singleton is i ih =>
      rw [snoc_iff, List.foldlM_append]
      simp [ih, Option.bind_eq_some_iff]

/-- Where the steps are deterministic, so is the run. -/
lemma unique (hdet : ∀ s i t t', next s i t → next s i t' → t = t') (h : Reaches next s₀ is s)
    (h' : Reaches next s₀ is s') : s = s' := by
  induction h generalizing s' with
  | start => exact (nil_iff.mp h').symm
  | step _ hn ih =>
      obtain ⟨t, ht, hn'⟩ := snoc_iff.mp h'
      obtain rfl := ih ht
      exact hdet _ _ _ _ hn hn'

lemma unique_of_foldlM {f : σ → ι → Option σ}
    (h : Reaches (fun s i s' => f s i = some s') s₀ is s)
    (h' : Reaches (fun s i s' => f s i = some s') s₀ is s') : s = s' :=
  h.unique (fun _ _ _ _ ht ht' => Option.some_inj.mp (ht.symm.trans ht')) h'

end Reaches

/-! ### What holds along a run -/

/-- `A` holds in every state of the run of the inputs `is`. -/
def Always (next : σ → ι → σ → Prop) (s₀ : σ) (A : σ → Prop) (is : List ι) : Prop :=
  ∀ js, js <+: is → ∀ s, Reaches next s₀ js s → A s

/-- `Q` holds of every input of the run of `is` and the state it is served in. -/
def AtEvery (next : σ → ι → σ → Prop) (s₀ : σ) (Q : σ → ι → Prop) (is : List ι) : Prop :=
  ∀ js i, js ++ [i] <+: is → ∀ s, Reaches next s₀ js s → Q s i

section Along

variable {next : σ → ι → σ → Prop} {s₀ : σ} {is : List ι} {I A : σ → Prop} {D Q R : σ → ι → Prop}

/-- What is true of every input there is holds at every step. -/
lemma AtEvery.of_forall {P : ι → Prop} (h : ∀ i ∈ is, P i) :
    AtEvery next s₀ (fun _ i => P i) is := by
  intro js i hpre s _
  exact h i (hpre.subset (by simp))

lemma AtEvery.nil : AtEvery next s₀ Q [] := by
  intro js i hpre
  simp at hpre

/-- One more step of a run. -/
lemma AtEvery.snoc {i : ι} (h : AtEvery next s₀ Q is) (hi : ∀ s, Reaches next s₀ is s → Q s i) :
    AtEvery next s₀ Q (is ++ [i]) := by
  intro js j hpre s hs
  rcases List.prefix_concat_iff.mp hpre with heq | hpre
  · obtain ⟨rfl, rfl⟩ := List.append_singleton_inj.mp heq
    exact hi s hs
  · exact h js j hpre s hs

/-- One more step of a run whose state is known. -/
lemma AtEvery.snoc_of_run {i : ι} {s : σ} (hdet : ∀ s i t t', next s i t → next s i t' → t = t')
    (h : AtEvery next s₀ Q is) (hs : Reaches next s₀ is s) (hi : Q s i) :
    AtEvery next s₀ Q (is ++ [i]) :=
  h.snoc fun _ hs' => hs.unique hdet hs' ▸ hi

lemma AtEvery.of_append {js : List ι} (h : AtEvery next s₀ Q (is ++ js)) : AtEvery next s₀ Q is :=
  fun ks i hpre => h ks i (hpre.trans (List.prefix_append is js))

/-- **The conditional invariant rule**: what every step keeps, given a condition on the step, holds
along a run whose steps all meet the condition. -/
lemma Always.of_atEvery (hstart : I s₀) (hstep : ∀ s i s', I s → Q s i → next s i s' → I s')
    (hQ : AtEvery next s₀ Q is) : Always next s₀ I is := by
  intro js
  induction js using List.reverseRecOn with
  | nil =>
      intro _ s hs
      rw [Reaches.nil_iff.mp hs]
      exact hstart
  | append_singleton js i ih =>
      intro hpre s' hs'
      obtain ⟨s, hs, hnext⟩ := Reaches.snoc_iff.mp hs'
      have hI := ih ((List.prefix_append js [i]).trans hpre) s hs
      exact hstep s i s' hI (hQ js i hpre s hs) hnext

/-- **The exact condition of a run**: on the steps of a domain `D`, an invariant is kept and the
steps are good as long as they meet `Q`, and a step that does not meet `Q` is bad or leads to a
bad state.  Then a run is good throughout exactly when its steps all meet `Q`. -/
theorem always_and_atEvery_iff (hstart : I s₀) (hA : ∀ s, I s → A s)
    (hR : ∀ s i, I s → D s i → Q s i → R s i)
    (hstep : ∀ s i s', I s → D s i → Q s i → next s i s' → I s')
    (hneeded : ∀ s i, I s → D s i → R s i → (∀ s', next s i s' → A s') → Q s i)
    (hD : AtEvery next s₀ D is) :
    (Always next s₀ A is ∧ AtEvery next s₀ R is) ↔ AtEvery next s₀ Q is := by
  constructor
  · rintro ⟨hgood, hsteps⟩
    have hQ : ∀ js i, js ++ [i] <+: is → ∀ s, Reaches next s₀ js s → I s → Q s i := by
      intro js i hpre s hs hI
      refine hneeded s i hI (hD js i hpre s hs) (hsteps js i hpre s hs) fun s' hnext => ?_
      exact hgood (js ++ [i]) hpre s' (.step hs hnext)
    have hI : Always next s₀ I is := by
      have hcond : AtEvery next s₀ (fun s i => D s i ∧ (I s → Q s i)) is :=
        fun js i hpre s hs => ⟨hD js i hpre s hs, hQ js i hpre s hs⟩
      exact Always.of_atEvery hstart
        (fun s i s' hI hcond hnext => hstep s i s' hI hcond.1 (hcond.2 hI) hnext) hcond
    exact fun js i hpre s hs =>
      hQ js i hpre s hs (hI js ((List.prefix_append js [i]).trans hpre) s hs)
  · intro hQ
    have hcond : AtEvery next s₀ (fun s i => D s i ∧ Q s i) is :=
      fun js i hpre s hs => ⟨hD js i hpre s hs, hQ js i hpre s hs⟩
    have hI : Always next s₀ I is :=
      Always.of_atEvery hstart
        (fun s i s' hI hcond hnext => hstep s i s' hI hcond.1 hcond.2 hnext) hcond
    refine ⟨fun js hpre s hs => hA s (hI js hpre s hs), fun js i hpre s hs => ?_⟩
    exact hR s i (hI js ((List.prefix_append js [i]).trans hpre) s hs)
      (hD js i hpre s hs) (hQ js i hpre s hs)

/-- **The exact condition of the states of a run**, where no step is bad in itself. -/
theorem always_iff_atEvery (hstart : I s₀) (hA : ∀ s, I s → A s)
    (hstep : ∀ s i s', I s → D s i → Q s i → next s i s' → I s')
    (hneeded : ∀ s i, I s → D s i → (∀ s', next s i s' → A s') → Q s i)
    (hD : AtEvery next s₀ D is) : Always next s₀ A is ↔ AtEvery next s₀ Q is := by
  calc Always next s₀ A is
      ↔ Always next s₀ A is ∧ AtEvery next s₀ (fun _ _ => True) is :=
        ⟨fun h => ⟨h, fun _ _ _ _ _ => trivial⟩, fun h => h.1⟩
    _ ↔ AtEvery next s₀ Q is :=
        always_and_atEvery_iff hstart hA (fun _ _ _ _ _ => trivial) hstep
          (fun s i hI hD _ hgood => hneeded s i hI hD hgood) hD

end Along

/-! ### Loops with a bound on the iterations -/

/-- A computation that takes a bound on the iterations of its loops returns `r`: it does so under
every bound that is large enough. -/
def Returns {α : Type*} (f : ℕ → Option α) (r : α) : Prop :=
  ∃ N, ∀ fuel, N ≤ fuel → f fuel = some r

/-- A computation returns one result at most. -/
lemma Returns.unique {α : Type*} {f : ℕ → Option α} {r r' : α} (h : Returns f r)
    (h' : Returns f r') : r = r' := by
  obtain ⟨N, hN⟩ := h
  obtain ⟨N', hN'⟩ := h'
  have heq := (hN (max N N') (le_max_left _ _)).symm.trans (hN' (max N N') (le_max_right _ _))
  exact Option.some_inj.mp heq

/-- A computation that returns `r` from `k` iterations on. -/
lemma Returns.of_add {α : Type*} {f : ℕ → Option α} {r : α} (k : ℕ)
    (h : ∀ fuel, f (fuel + k) = some r) : Returns f r := by
  refine ⟨k, fun fuel hfuel => ?_⟩
  obtain ⟨fuel, rfl⟩ := Nat.exists_eq_add_of_le' hfuel
  exact h fuel

/-- What follows a computation that returns, without a loop of its own. -/
lemma Returns.map {α β : Type*} {f : ℕ → Option α} {g : ℕ → Option β} {r : α} {r' : β}
    (hg : Returns g r') (hf : ∀ fuel, g fuel = some r' → f fuel = some r) : Returns f r := by
  obtain ⟨N, hN⟩ := hg
  exact ⟨N, fun fuel hfuel => hf fuel (hN fuel hfuel)⟩

/-- One iteration in front of a computation that returns. -/
lemma Returns.succ {α β : Type*} {f : ℕ → Option α} {g : ℕ → Option β} {r : α} {r' : β}
    (hg : Returns g r') (hf : ∀ fuel, g fuel = some r' → f (fuel + 1) = some r) : Returns f r := by
  obtain ⟨N, hN⟩ := hg
  exact .of_add (N + 1) fun fuel => hf (fuel + N) (hN _ (Nat.le_add_left N fuel))

/-- `o'` has the result that `o` has, if it has one. -/
def Extends {α : Type*} (o o' : Option α) : Prop := ∀ r, o = some r → o' = some r

namespace Extends

variable {α β : Type*} {o o' u u' : Option α}

@[refl] lemma refl (o : Option α) : Extends o o := fun _ h => h

lemma of_none (o : Option α) : Extends none o := fun _ h => by simp at h

lemma bind {f f' : α → Option β} (h : Extends o o') (hf : ∀ a, Extends (f a) (f' a)) :
    Extends (o.bind f) (o'.bind f') := by
  intro r hr
  obtain ⟨a, ha, hr⟩ := Option.bind_eq_some_iff.mp hr
  exact Option.bind_eq_some_iff.mpr ⟨a, h a ha, hf a r hr⟩

lemma ite {p : Prop} [Decidable p] (h : Extends o o') (h' : Extends u u') :
    Extends (if p then o else u) (if p then o' else u') := by
  split
  · exact h
  · exact h'

end Extends

/-- A computation that keeps its result under a larger bound returns it. -/
lemma returns_of_extends {α : Type*} {f : ℕ → Option α} {n : ℕ} {r : α}
    (hf : ∀ n, Extends (f n) (f (n + 1))) (h : f n = some r) : Returns f r := by
  refine ⟨n, fun fuel hfuel => ?_⟩
  induction fuel, hfuel using Nat.le_induction with
  | base => exact h
  | succ fuel _ ih => exact hf fuel r ih

end Foundation
