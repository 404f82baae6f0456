import Wgs.Foundation.Heap

/-!
Computations on a memory that keep a list of the pointers they go through.

A program on linked cells is stuck at an access through null, so a computation that has a result
has made none.  `Watched` makes that explicit: a copy of the program on watched accesses, each with
the name the program has for the pointer, lists what the program dereferences.  The copy computes
what the program does (the `result_` lemmas), and `Safe` says that it lists no null pointer unless
it is stuck.
-/

namespace Foundation

/-- A computation with the pointers it went through, each under its name in the program. -/
structure Watched (ν α : Type) where
  uses : List (ν × Ptr)
  result : Option α

namespace Watched

variable {ν α β γ : Type}

instance : Monad (Watched ν) where
  pure a := ⟨[], some a⟩
  bind x f :=
    match x.result with
    | none => ⟨x.uses, none⟩
    | some a => ⟨x.uses ++ (f a).uses, (f a).result⟩

/-- A computation that is not watched. -/
instance : MonadLift Option (Watched ν) := ⟨fun o => ⟨[], o⟩⟩

/-- `p->f` -/
def read (name : ν) (m : Mem γ) (p : Ptr) (f : γ → α) : Watched ν α := ⟨[(name, p)], m.read p f⟩

/-- `p->f = ..` -/
def modify (name : ν) (m : Mem γ) (p : Ptr) (f : γ → γ) : Watched ν (Mem γ) :=
  ⟨[(name, p)], m.modify p f⟩

/-! ### What it computes -/

section Result

variable {x y : Watched ν α} {f : α → Watched ν β} {o : Option α} {name : ν} {m : Mem γ} {p : Ptr}

@[simp] lemma result_pure (a : α) : (pure a : Watched ν α).result = some a := rfl

@[simp]
lemma result_bind : (x >>= f).result = x.result.bind fun a => (f a).result := by
  change Watched.result (match x.result with | none => _ | some a => _) = _
  cases x.result <;> rfl

@[simp] lemma result_lift : (liftM o : Watched ν α).result = o := rfl

@[simp] lemma result_read (f : γ → α) : (read name m p f).result = m.read p f := rfl

@[simp] lemma result_modify (f : γ → γ) : (modify name m p f).result = m.modify p f := rfl

@[simp]
lemma result_ite {q : Prop} [Decidable q] :
    (if q then x else y).result = if q then x.result else y.result := by
  split <;> rfl

end Result

/-! ### No null pointer -/

/-- No pointer used is null, unless the computation is stuck. -/
def Safe (x : Watched ν α) : Prop := x.result ≠ none → ∀ u ∈ x.uses, u.2 ≠ none

section Safe

variable {x y : Watched ν α} {f : α → Watched ν β}

lemma Safe.pure (a : α) : Safe (pure a : Watched ν α) := fun _ _ hu => absurd hu List.not_mem_nil

lemma Safe.lift (o : Option α) : Safe (liftM o : Watched ν α) :=
  fun _ _ hu => absurd hu List.not_mem_nil

lemma Safe.bind (hx : Safe x) (hf : ∀ a, Safe (f a)) : Safe (x >>= f) := by
  obtain ⟨uses, result⟩ := x
  cases result with
  | none => exact fun h => absurd rfl h
  | some a =>
      intro h u hu
      rcases List.mem_append.mp hu with hu | hu
      · exact hx (Option.some_ne_none a) u hu
      · exact hf a h u hu

lemma Safe.ite {q : Prop} [Decidable q] (hx : Safe x) (hy : Safe y) :
    Safe (if q then x else y) := by
  split
  · exact hx
  · exact hy

/-- An access through null is stuck. -/
lemma Safe.read (name : ν) (m : Mem γ) (p : Ptr) (f : γ → α) : Safe (read name m p f) := by
  intro h u hu
  obtain rfl := List.mem_singleton.mp hu
  rintro rfl
  exact h rfl

lemma Safe.modify (name : ν) (m : Mem γ) (p : Ptr) (f : γ → γ) : Safe (modify name m p f) := by
  intro h u hu
  obtain rfl := List.mem_singleton.mp hu
  rintro rfl
  exact h rfl

end Safe

end Watched

end Foundation
