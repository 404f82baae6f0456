import Wgs.Stack.Agree

/-!
The interface `stack/stack.h` and its three implementations.

They agree on every sequence of calls that leaves at most `min 100 n` elements, for an array created
with `create_stack(n)` — if the `int` that `n` is stored in is large enough for them
(`stacks_agree_iff`).
-/

namespace Wgs.Stack

open Foundation

/-- The three stacks answer the calls as a list does, and print it in the end; `d` is the allocated
array, and the nodes are allocated in `m`. -/
structure ThreeAgree (d : Dynamic.State) (m : Mem StackNode) (cs : List Call) : Prop where
  static_eq : transcript Static.exec Static.start cs = transcript lifo [] cs
  dynamic_eq : transcript Dynamic.exec d cs = transcript lifo [] cs
  linked_eq : transcript Linked.exec ⟨none, m⟩ cs = transcript lifo [] cs
  prints : ∀ L, stateAfter lifo [] cs = some L →
    (∃ s, stateAfter Static.exec Static.start cs = some s
        ∧ Prints (fun fuel => Static.print fuel s) L)
      ∧ (∃ s, stateAfter Dynamic.exec d cs = some s
        ∧ Prints (fun fuel => Dynamic.print fuel s) L)
      ∧ ∃ s, stateAfter Linked.exec ⟨none, m⟩ cs = some s
        ∧ Prints (fun fuel => Linked.print fuel s) L

/-- The stacks agree on all calls after `create_stack(n)` that leave at most `min 100 n` elements,
whatever `malloc` finds in the memory it hands out. -/
def AgreeAfterCreate (n : ℤ) : Prop :=
  ∀ junk m cs d, Dynamic.createStack n junk Dynamic.start = .ok d →
    Along lifo (Fits (min 100 n)) [] cs → Along Linked.exec Linked.Fresh ⟨none, m⟩ cs →
    ThreeAgree d m cs

variable {n : ℤ} {c : Call} {cs : List Call} {L : List ℤ}

lemma Fits.mono {a b : ℤ} (h : Fits a L c) (hab : a ≤ b) : Fits b L c :=
  fun r L' hL => (h r L' hL).trans hab

/-- An `int` that is large enough for the elements makes the stacks agree. -/
lemma agree_of_le (h1 : 1 ≤ n) (hle : min 100 n ≤ toInt32 n) : AgreeAfterCreate n := by
  intro junk m cs d hcreate hfits hfresh
  obtain ⟨d', hcreate', hrel, hsize⟩ := Dynamic.createStack_rel junk (show 0 < toInt32 n by omega)
  obtain rfl := Except.ok.inj (hcreate'.symm.trans hcreate)
  have hstatic := transcript_eq_of_agree Static.exec lifo
    (fun s L c h _ hfit => Static.agree h hfit)
    Static.rel_start (Along.of_forall (P := fun _ _ => True) fun _ _ => trivial)
    (hfits.mono fun L c h => h.mono (min_le_left _ _))
  have hdynamic := transcript_eq_of_agree Dynamic.exec lifo
    (fun s L c h _ hfit => Dynamic.agree h hfit) ⟨hrel, hsize⟩
    (Along.of_forall (P := fun _ _ => True) fun _ _ => trivial) (hfits.mono fun L c h => h.mono hle)
  have hlinked := transcript_eq_of_agree Linked.exec lifo
    (fun s L c h hfresh _ => Linked.agree h hfresh) (Linked.rel_start m) hfresh
    (hfits.mono fun L c h => h)
  refine ⟨hstatic.1, hdynamic.1, hlinked.1, fun L hL => ⟨?_, ?_, ?_⟩⟩
  · obtain ⟨s, hs, hrel⟩ := hstatic.2 L hL
    exact ⟨s, hs, hrel.prints⟩
  · obtain ⟨s, hs, hrel⟩ := hdynamic.2 L hL
    exact ⟨s, hs, hrel.1.prints⟩
  · obtain ⟨s, hs, hrel⟩ := hlinked.2 L hL
    exact ⟨s, hs, hrel.prints⟩

/-! ### An `int` that is too small -/

/-- `count` calls of `push`, their nodes at the addresses from `a` on. -/
def pushes (a : ℕ) : ℕ → List Call
  | 0 => []
  | count + 1 => .push 0 a ⟨0, none⟩ :: pushes (a + 1) count

lemma fits_pushes {cap : ℤ} (a count : ℕ) (hfit : (L.length : ℤ) + count ≤ cap) :
    Along lifo (Fits cap) L (pushes a count) := by
  induction count generalizing a L with
  | zero => trivial
  | succ count ih =>
      push_cast at hfit
      refine ⟨fun r L' hL => ?_, fun r L' hL => ?_⟩
      · cases hL
        rw [List.length_cons]
        push_cast
        omega
      · cases hL
        exact ih (a + 1) (by rw [List.length_cons]; push_cast; omega)

lemma fresh_pushes (a count : ℕ) {s : Linked.State} (hfree : ∀ b, a ≤ b → s.mem b = none) :
    Along Linked.exec Linked.Fresh s (pushes a count) := by
  induction count generalizing a s with
  | zero => trivial
  | succ count ih =>
      refine ⟨hfree a le_rfl, fun r s' hs => ih (a + 1) fun b hb => ?_⟩
      simp only [Linked.exec, Linked.push, Mem.malloc_eq (hfree a le_rfl), Mem.modify_update,
        orFault_some, except_bind_ok, except_map_ok, except_pure] at hs
      obtain ⟨-, rfl⟩ := Prod.mk.inj (Except.ok.inj hs)
      exact (Function.update_of_ne (by omega) _ _).trans (hfree b (by omega))

/-- One element more than the array has room for. -/
lemma transcript_pushes_ne (a count : ℕ) {d : Dynamic.State} (hrel : Dynamic.Rel d L)
    (hover : (L.length : ℤ) + count = d.stackSize) :
    transcript Dynamic.exec d (pushes a (count + 1))
      ≠ transcript lifo L (pushes a (count + 1)) := by
  induction count generalizing a L d with
  | zero =>
      have hfull : (L.length : ℤ) = d.stackSize := by simpa using hover
      simp [pushes, transcript, Dynamic.exec, Dynamic.push, hrel.isFull_eq, hfull, lifo]
  | succ count ih =>
      push_cast at hover
      have hfits : Fits d.stackSize L (.push 0 a ⟨0, none⟩) := by
        intro r L' hL
        cases hL
        rw [List.length_cons]
        push_cast
        omega
      have hstep := Dynamic.agree ⟨hrel, rfl⟩ hfits
      rw [pushes, transcript, transcript]
      cases hd : Dynamic.exec (.push 0 a ⟨0, none⟩) d with
      | error e =>
          rw [hd] at hstep
          exact hstep.elim
      | ok rd =>
          obtain ⟨r, d'⟩ := rd
          rw [hd] at hstep
          obtain ⟨rfl, hrel', hsize⟩ := hstep
          have hne := ih (a + 1) hrel' (by rw [List.length_cons, hsize]; push_cast; omega)
          simpa [lifo] using hne

/-- An `int` that is too small for the elements: an assertion fails that does not fail in the other
stacks. -/
lemma not_agree_of_lt (h1 : 1 ≤ n) (hlt : toInt32 n < min 100 n) : ¬ AgreeAfterCreate n := by
  intro hclaim
  by_cases hpos : 0 < toInt32 n
  · obtain ⟨d, hcreate, hrel, hsize⟩ := Dynamic.createStack_rel (fun _ => 0) hpos
    obtain ⟨k, hk⟩ := Int.eq_ofNat_of_zero_le hpos.le
    have hagree := hclaim (fun _ => 0) (fun _ => none) (pushes 0 (k + 1)) d hcreate
      (fits_pushes 0 (k + 1) (by push_cast; simp; omega)) (fresh_pushes 0 (k + 1) fun _ _ => rfl)
    exact transcript_pushes_ne 0 k hrel (by simp; omega) hagree.dynamic_eq
  · have hagree := hclaim (fun _ => 0) (fun _ => none) [.isEmpty]
      ⟨Dynamic.malloc (toInt32 n) fun _ => 0, toInt32 n, -1⟩ (by simp [Dynamic.createStack,
        Dynamic.start]) ⟨fun r L' hL => ?_, fun _ _ _ => trivial⟩ ⟨trivial, fun _ _ _ => trivial⟩
    · have heq := hagree.dynamic_eq
      simp [transcript, Dynamic.exec, Dynamic.isEmpty, hpos, lifo] at heq
    · cases hL
      simp only [List.length_nil, Nat.cast_zero]
      omega

/-- **The three stacks agree** after `create_stack(n)` exactly if the `int` that `n` is converted to
is at least `min 100 n`. -/
theorem stacks_agree_iff (h1 : 1 ≤ n) : AgreeAfterCreate n ↔ min 100 n ≤ toInt32 n := by
  refine ⟨fun hclaim => ?_, agree_of_le h1⟩
  by_contra hlt
  exact not_agree_of_lt h1 (by omega) hclaim

/-- A stack of two elements. -/
theorem stacks_agree_two : AgreeAfterCreate 2 := (stacks_agree_iff (by decide)).mpr (by decide)

/-- **`create_stack(4294967296)`** makes a stack of size zero, and `is_empty` fails its
assertion. -/
theorem create_truncates :
    ¬ ∀ n : ℤ, 1 ≤ n → n < 18446744073709551616 → AgreeAfterCreate n := by
  intro hclaim
  exact not_agree_of_lt (n := 4294967296) (by decide) (by decide)
    (hclaim 4294967296 (by decide) (by decide))

end Wgs.Stack
