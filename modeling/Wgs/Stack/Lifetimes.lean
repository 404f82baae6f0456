import Wgs.Foundation.Runs
import Wgs.Stack.Agree

/-!
`stack/dyn_static.c` across `create_stack` and `destroy_stack`.

`destroy_stack` releases the array and resets `stack_size`, but not `top_element`: a stack that is
destroyed with elements in it is not empty when it is created again, and the cursor may be outside
of the new array.  It all goes well exactly if every `create_stack` comes when as many elements have
been popped as pushed (`lifetimes_iff`).
-/

namespace Wgs.Stack.Dynamic

open Foundation

/-- A call of a client, `create_stack` with what `malloc` finds in the memory it hands out. -/
inductive LifeCall where
  | createStack (size : ℤ) (junk : ℤ → ℤ)
  | destroyStack
  | push (value : ℤ)
  | pop
  | top

/-- What a call leaves. -/
def LifeCall.exec (c : LifeCall) (s : State) : Except Trap State :=
  match c with
  | createStack size junk => Dynamic.createStack size junk s
  | destroyStack => Dynamic.destroyStack s
  | push value => Dynamic.push value s
  | pop => Dynamic.pop s
  | top => (Dynamic.top s).map fun _ => s

/-- One call, which leaves the state `s'`. -/
def Step (s : State) (c : LifeCall) (s' : State) : Prop := c.exec s = .ok s'

/-- The call passes the assertions, and `create_stack` is given a `size_t` from `1` on for which
`malloc` has memory. -/
def InDomain (s : State) (c : LifeCall) : Prop :=
  c.exec s ≠ .error .assertion ∧ ∀ size junk, c = .createStack size junk →
    1 ≤ size ∧ size < 18446744073709551616 ∧ malloc (toInt32 size) junk ≠ none

/-- While there is an array, `top_element` is inside it, or `-1`. -/
def InBounds (s : State) : Prop :=
  s.stack ≠ none → -1 ≤ s.topElement ∧ s.topElement < s.stackSize

/-- The call uses no index outside of the array, and `create_stack` leaves an empty stack. -/
def Sound (s : State) (c : LifeCall) : Prop :=
  c.exec s ≠ .error .fault ∧ ∀ size junk, c = .createStack size junk →
    ∀ s', Step s c s' → s'.topElement = -1

/-- The elements pushed by a list of calls. -/
def pushed (cs : List LifeCall) : ℤ :=
  cs.countP fun c => match c with
    | .push _ => true
    | _ => false

/-- The elements popped by a list of calls. -/
def popped (cs : List LifeCall) : ℤ :=
  cs.countP fun c => match c with
    | .pop => true
    | _ => false

/-- Every `create_stack` comes when as many elements have been popped as pushed. -/
def Emptied (cs : List LifeCall) : Prop :=
  ∀ js size junk, js ++ [.createStack size junk] <+: cs → pushed js = popped js

/-- `create_stack` finds `top_element` at `-1`. -/
def FindsEmpty (s : State) (c : LifeCall) : Prop :=
  ∀ size junk, c = .createStack size junk → s.topElement = -1

/-- What a run keeps as long as `create_stack` finds the stack empty. -/
structure Whole (s : State) : Prop where
  top_ge : -1 ≤ s.topElement
  size_nonneg : 0 ≤ s.stackSize
  size_eq_zero : s.stack = none → s.stackSize = 0
  block : ∀ b, s.stack = some b → b.size = s.stackSize ∧ s.topElement < s.stackSize

variable {s s' : State} {c : LifeCall} {cs : List LifeCall}

/-! ### One call -/

lemma createStack_ok {size : ℤ} {junk : ℤ → ℤ} :
    Dynamic.createStack size junk s = .ok s'
      ↔ s.stackSize = 0 ∧ s' = ⟨malloc (toInt32 size) junk, toInt32 size, s.topElement⟩ := by
  by_cases hsize : s.stackSize = 0 <;> simp [Dynamic.createStack, hsize, eq_comm]

lemma destroyStack_ok :
    Dynamic.destroyStack s = .ok s' ↔ 0 < s.stackSize ∧ s' = ⟨none, 0, s.topElement⟩ := by
  by_cases hsize : 0 < s.stackSize <;> simp [Dynamic.destroyStack, hsize, eq_comm]

lemma pop_ok :
    Dynamic.pop s = .ok s' ↔ 0 < s.stackSize ∧ s.topElement ≠ -1
      ∧ s' = { s with topElement := s.topElement - 1 } := by
  by_cases hsize : 0 < s.stackSize <;> by_cases htop : s.topElement = -1 <;>
    simp [Dynamic.pop, isEmpty, hsize, htop, eq_comm]

lemma push_ok {value : ℤ} :
    Dynamic.push value s = .ok s' ↔ 0 < s.stackSize ∧ s.topElement ≠ s.stackSize - 1
      ∧ ∃ b, s.stack = some b ∧ 0 ≤ s.topElement + 1 ∧ s.topElement + 1 < b.size
        ∧ s' = ⟨some { b with cells := Function.update b.cells (s.topElement + 1) value },
          s.stackSize, s.topElement + 1⟩ := by
  obtain ⟨stack, size, top⟩ := s
  by_cases hsize : 0 < size <;> by_cases hfull : top = size - 1 <;>
    simp [Dynamic.push, isFull, hsize, hfull]
  cases stack with
  | none => simp [orFault]
  | some b =>
      by_cases hidx : 0 ≤ top + 1 ∧ top + 1 < b.size
      · simp [Block.set, hidx, eq_comm]
      · simp only [orFault_some, except_bind_ok, Block.set, if_neg hidx, except_bind_error,
          reduceCtorEq, false_iff]
        rintro ⟨b', hb, h0, hlt, -⟩
        obtain rfl := Option.some_inj.mp hb
        exact hidx ⟨h0, hlt⟩

lemma top_same (h : Step s .top s') : s = s' := by
  cases htop : Dynamic.top s with
  | error e => simp [Step, LifeCall.exec, htop] at h
  | ok v => simpa [Step, LifeCall.exec, htop] using h

/-- In a whole stack no call reaches outside of the array. -/
lemma Whole.no_fault (hs : Whole s) : c.exec s ≠ .error .fault := by
  intro hfault
  cases c with
  | createStack size junk =>
      by_cases hsize : s.stackSize = 0 <;>
        simp [LifeCall.exec, Dynamic.createStack, hsize] at hfault
  | destroyStack =>
      by_cases hsize : 0 < s.stackSize <;>
        simp [LifeCall.exec, Dynamic.destroyStack, hsize] at hfault
  | pop =>
      by_cases hsize : 0 < s.stackSize <;> by_cases htop : s.topElement = -1 <;>
        simp [LifeCall.exec, Dynamic.pop, isEmpty, hsize, htop] at hfault
  | push value =>
      by_cases hsize : 0 < s.stackSize <;> by_cases hfull : s.topElement = s.stackSize - 1 <;>
        simp [LifeCall.exec, Dynamic.push, isFull, hsize, hfull] at hfault
      cases hstack : s.stack with
      | none =>
          have := hs.size_eq_zero hstack
          omega
      | some b =>
          obtain ⟨hb, htop⟩ := hs.block b hstack
          have hge := hs.top_ge
          simp [hstack, b.set_eq value (show 0 ≤ s.topElement + 1 by omega) (by omega)] at hfault
  | top =>
      by_cases hsize : 0 < s.stackSize <;> by_cases hempty : s.topElement = -1 <;>
        simp [LifeCall.exec, Dynamic.top, isEmpty, hsize, hempty] at hfault
      cases hstack : s.stack with
      | none =>
          have := hs.size_eq_zero hstack
          omega
      | some b =>
          obtain ⟨hb, htop⟩ := hs.block b hstack
          have hge := hs.top_ge
          simp [get, hstack, b.get_eq (show 0 ≤ s.topElement by omega) (by omega)] at hfault

lemma Whole.inBounds (hs : Whole s) : InBounds s := by
  intro hlive
  obtain ⟨b, hb⟩ := Option.ne_none_iff_exists'.mp hlive
  exact ⟨hs.top_ge, (hs.block b hb).2⟩

/-- A call that finds the stack empty if it creates one is sound. -/
lemma Whole.sound (hs : Whole s) (hempty : FindsEmpty s c) : Sound s c := by
  refine ⟨hs.no_fault, ?_⟩
  rintro size junk rfl s' hstep
  obtain ⟨-, rfl⟩ := createStack_ok.mp hstep
  exact hempty size junk rfl

lemma malloc_eq_some {size : ℤ} {junk : ℤ → ℤ} (h : malloc size junk ≠ none) :
    0 ≤ size ∧ malloc size junk = some ⟨size, junk⟩ := by
  rw [malloc] at h ⊢
  split_ifs with hneg
  · simp [hneg] at h
  · exact ⟨not_lt.mp hneg, rfl⟩

/-- A step keeps the stack whole. -/
lemma Whole.step (hs : Whole s) (hdom : InDomain s c) (hempty : FindsEmpty s c)
    (h : Step s c s') : Whole s' := by
  have hge := hs.top_ge
  cases c with
  | createStack size junk =>
      obtain ⟨-, rfl⟩ := createStack_ok.mp h
      obtain ⟨-, -, hmalloc⟩ := hdom.2 size junk rfl
      obtain ⟨hnonneg, hblock⟩ := malloc_eq_some hmalloc
      have htop := hempty size junk rfl
      refine ⟨hge, hnonneg, fun hnone => absurd hnone hmalloc, fun b hb => ?_⟩
      rw [hblock] at hb
      obtain rfl := Option.some_inj.mp hb
      exact ⟨rfl, by simp only; omega⟩
  | destroyStack =>
      obtain ⟨-, rfl⟩ := destroyStack_ok.mp h
      exact ⟨hge, le_rfl, fun _ => rfl, fun b hb => by cases hb⟩
  | push value =>
      obtain ⟨hpos, -, b, hb, h0, hlt, rfl⟩ := push_ok.mp h
      obtain ⟨hsize, -⟩ := hs.block b hb
      refine ⟨by simp only; omega, hpos.le, (nomatch ·), fun b' hb' => ?_⟩
      obtain rfl := Option.some_inj.mp hb'
      exact ⟨hsize, by simp only; omega⟩
  | pop =>
      obtain ⟨-, hne, rfl⟩ := pop_ok.mp h
      refine ⟨by simp only; omega, hs.size_nonneg, hs.size_eq_zero, fun b hb => ?_⟩
      obtain ⟨hsize, hlt⟩ := hs.block b hb
      exact ⟨hsize, by simp only; omega⟩
  | top =>
      exact top_same h ▸ hs

/-! ### Runs -/

lemma whole_start : Whole start :=
  ⟨le_rfl, le_rfl, fun _ => rfl, fun b hb => by cases hb⟩

lemma step_unique (s : State) (c : LifeCall) (t t' : State) (h : Step s c t) (h' : Step s c t') :
    t = t' :=
  Except.ok.inj (h.symm.trans h')

@[simp] lemma pushed_snoc : pushed (cs ++ [c]) = pushed cs + pushed [c] := by
  simp [pushed]

@[simp] lemma popped_snoc : popped (cs ++ [c]) = popped cs + popped [c] := by
  simp [popped]

/-- `top_element` counts the elements pushed and not popped, whatever was destroyed. -/
lemma top_of_run (h : Reaches Step start cs s) : s.topElement = -1 + pushed cs - popped cs := by
  refine h.induct (P := fun cs s => s.topElement = -1 + pushed cs - popped cs) rfl
    fun cs s c s' _ hs hstep => ?_
  rw [pushed_snoc, popped_snoc]
  cases c with
  | createStack size junk =>
      obtain ⟨-, rfl⟩ := createStack_ok.mp hstep
      simpa [pushed, popped] using hs
  | destroyStack =>
      obtain ⟨-, rfl⟩ := destroyStack_ok.mp hstep
      simpa [pushed, popped] using hs
  | push value =>
      obtain ⟨-, -, b, -, -, -, rfl⟩ := push_ok.mp hstep
      simp [pushed, popped] at hs ⊢
      omega
  | pop =>
      obtain ⟨-, -, rfl⟩ := pop_ok.mp hstep
      simp [pushed, popped] at hs ⊢
      omega
  | top =>
      rw [← top_same hstep]
      simpa [pushed, popped] using hs

/-- A run whose calls find the stack empty where they create it reaches a whole stack. -/
lemma reached (hdom : AtEvery Step start InDomain cs) (hempty : AtEvery Step start FindsEmpty cs) :
    ∃ s, Reaches Step start cs s ∧ Whole s := by
  induction cs using List.reverseRecOn with
  | nil => exact ⟨start, .start, whole_start⟩
  | append_singleton cs c ih =>
      obtain ⟨s, hrun, hs⟩ := ih hdom.of_append hempty.of_append
      have hc := hdom cs c List.prefix_rfl s hrun
      cases hexec : c.exec s with
      | error e =>
          cases e with
          | assertion => exact absurd hexec hc.1
          | fault => exact absurd hexec hs.no_fault
      | ok s' =>
          exact ⟨s', .step hrun hexec, hs.step hc (hempty cs c List.prefix_rfl s hrun) hexec⟩

/-- To find the stack empty is to have popped what was pushed. -/
lemma findsEmpty_iff (hdom : AtEvery Step start InDomain cs) :
    AtEvery Step start FindsEmpty cs ↔ Emptied cs := by
  constructor
  · intro hempty js size junk hpre
    obtain ⟨ks, rfl⟩ := hpre
    obtain ⟨s, hrun, -⟩ := reached hdom.of_append.of_append hempty.of_append.of_append
    have htop := top_of_run hrun
    have hfound := hempty js _ (List.prefix_append _ ks) s hrun size junk rfl
    omega
  · rintro hemptied js c hpre s hrun size junk rfl
    have htop := top_of_run hrun
    have hsame := hemptied js size junk hpre
    omega

/-- A run is sound exactly if every `create_stack` finds the stack empty. -/
lemma sound_iff_findsEmpty (hdom : AtEvery Step start InDomain cs) :
    (Always Step start InBounds cs ∧ AtEvery Step start Sound cs)
      ↔ AtEvery Step start FindsEmpty cs := by
  refine always_and_atEvery_iff whole_start (fun s hs => hs.inBounds)
    (fun s c hs _ hempty => hs.sound hempty)
    (fun s c s' hs hdom hempty hstep => hs.step hdom hempty hstep) (fun s c _ hdom hsound _ => ?_)
    hdom
  rintro size junk rfl
  have hsize : s.stackSize = 0 := by
    by_contra hne
    exact hdom.1 (by simp [LifeCall.exec, Dynamic.createStack, hne])
  exact hsound.2 size junk rfl ⟨malloc (toInt32 size) junk, toInt32 size, s.topElement⟩
    (createStack_ok.mpr ⟨hsize, rfl⟩)

/-- **Creating and destroying.**  In a run of calls that pass the assertions, `top_element` stays
inside the array, no index is used outside of it, and every `create_stack` leaves an empty stack,
exactly if every `create_stack` comes when as many elements have been popped as pushed. -/
theorem lifetimes_iff (hdom : AtEvery Step start InDomain cs) :
    (Always Step start InBounds cs ∧ AtEvery Step start Sound cs) ↔ Emptied cs :=
  (sound_iff_findsEmpty hdom).trans (findsEmpty_iff hdom)

/-- A `create_stack` for which there is memory. -/
lemma inDomain_createStack {n size : ℤ} {junk : ℤ → ℤ}
    (heq : LifeCall.createStack n (fun _ => 0) = .createStack size junk) (h1 : 1 ≤ n)
    (hlt : n < 18446744073709551616) (hmalloc : malloc (toInt32 n) (fun _ => 0) ≠ none) :
    1 ≤ size ∧ size < 18446744073709551616 ∧ malloc (toInt32 size) junk ≠ none := by
  cases heq
  exact ⟨h1, hlt, hmalloc⟩

/-- What is pushed is popped before the stack is destroyed, and it is created again with room for
one. -/
def balancedLives : List LifeCall :=
  [.createStack 2 fun _ => 0, .push 5, .pop, .destroyStack, .createStack 1 fun _ => 0, .push 6]

lemma inDomain_balancedLives : AtEvery Step start InDomain balancedLives := by
  have h₁ : Reaches Step start [.createStack 2 fun _ => 0] ⟨some ⟨2, fun _ => 0⟩, 2, -1⟩ :=
    .step .start rfl
  have h₂ := h₁.step (show Step _ (.push 5) ⟨some ⟨2, _⟩, 2, 0⟩ from rfl)
  have h₃ := h₂.step (show Step _ .pop ⟨some ⟨2, _⟩, 2, -1⟩ from rfl)
  have h₄ := h₃.step (show Step _ .destroyStack ⟨none, 0, -1⟩ from rfl)
  have h₅ := h₄.step
    (show Step _ (.createStack 1 fun _ => 0) ⟨some ⟨1, fun _ => 0⟩, 1, -1⟩ from rfl)
  refine AtEvery.snoc_of_run step_unique (.snoc_of_run step_unique (.snoc_of_run step_unique
    (.snoc_of_run step_unique (.snoc_of_run step_unique (.snoc_of_run step_unique .nil .start ?_)
      h₁ ?_) h₂ ?_) h₃ ?_) h₄ ?_) h₅ ?_
  · exact ⟨nofun, fun _ _ heq => inDomain_createStack heq (by decide) (by decide) nofun⟩
  · exact ⟨nofun, nofun⟩
  · exact ⟨nofun, nofun⟩
  · exact ⟨nofun, nofun⟩
  · exact ⟨nofun, fun _ _ heq => inDomain_createStack heq (by decide) (by decide) nofun⟩
  · exact ⟨nofun, nofun⟩

lemma emptied_balancedLives : Emptied balancedLives := by
  intro js size junk hpre
  rcases js with - | ⟨c₁, - | ⟨c₂, - | ⟨c₃, - | ⟨c₄, - | ⟨c₅, - | ⟨c₆, js⟩⟩⟩⟩⟩⟩ <;>
    simp [balancedLives] at hpre
  · rfl
  · obtain ⟨rfl, rfl, rfl, rfl, -⟩ := hpre
    rfl

/-- A stack that is emptied, destroyed and created again. -/
theorem lifetimes_iff_balanced :
    Always Step start InBounds balancedLives ∧ AtEvery Step start Sound balancedLives :=
  (lifetimes_iff inDomain_balancedLives).mpr emptied_balancedLives

/-- Two elements are pushed, and the stack is destroyed and created again with room for one. -/
def twoLives : List LifeCall :=
  [.createStack 2 fun _ => 0, .push 5, .push 6, .destroyStack, .createStack 1 fun _ => 0]

lemma inDomain_twoLives : AtEvery Step start InDomain twoLives := by
  have h₁ : Reaches Step start [.createStack 2 fun _ => 0] ⟨some ⟨2, fun _ => 0⟩, 2, -1⟩ :=
    .step .start rfl
  have h₂ := h₁.step (show Step _ (.push 5) ⟨some ⟨2, _⟩, 2, 0⟩ from rfl)
  have h₃ := h₂.step (show Step _ (.push 6) ⟨some ⟨2, _⟩, 2, 1⟩ from rfl)
  have h₄ := h₃.step (show Step _ .destroyStack ⟨none, 0, 1⟩ from rfl)
  refine AtEvery.snoc_of_run step_unique (.snoc_of_run step_unique (.snoc_of_run step_unique
    (.snoc_of_run step_unique (.snoc_of_run step_unique .nil .start ?_) h₁ ?_) h₂ ?_) h₃ ?_) h₄ ?_
  · exact ⟨nofun, fun _ _ heq => inDomain_createStack heq (by decide) (by decide) nofun⟩
  · exact ⟨nofun, nofun⟩
  · exact ⟨nofun, nofun⟩
  · exact ⟨nofun, nofun⟩
  · exact ⟨nofun, fun _ _ heq => inDomain_createStack heq (by decide) (by decide) nofun⟩

/-- **A stack that is destroyed with elements in it** is not empty when it is created again. -/
theorem destroyed_with_elements :
    ¬ ∀ cs, AtEvery Step start InDomain cs →
      Always Step start InBounds cs ∧ AtEvery Step start Sound cs := by
  intro hclaim
  have hempty := (sound_iff_findsEmpty inDomain_twoLives).mp (hclaim twoLives inDomain_twoLives)
  have hemptied := (findsEmpty_iff inDomain_twoLives).mp hempty
  have hsame := hemptied [.createStack 2 fun _ => 0, .push 5, .push 6, .destroyStack] 1
    (fun _ => 0) List.prefix_rfl
  simp [pushed, popped] at hsame

end Wgs.Stack.Dynamic
