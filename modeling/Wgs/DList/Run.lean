import Wgs.DList.Calls

/-!
Runs of calls on a doubly linked list.

A run leads from the empty chain to the chain of the sequence its calls leave (`run_linked`), so
the list stays well formed and acts as the sequence (`dlist_sequence`).  The nodes have to be no
more than an `int` counts: one insertion more, and `size` is negative (`dlist_overflow`).
-/

namespace Wgs

open Foundation

variable {h : ℕ} {s s' : DListState} {c : DListCall} {P : List (ℕ × ℤ) → DListCall → Prop}
  {cs : List DListCall}

@[simp] lemma sequence_snoc : sequence (cs ++ [c]) = c.apply (sequence cs) := by
  simp [sequence]

lemma AllAlong.of_snoc (hP : AllAlong P (cs ++ [c])) : AllAlong P cs :=
  fun cs' c' hpre => hP cs' c' (hpre.trans (List.prefix_append cs [c]))

lemma AllAlong.last (hP : AllAlong P (cs ++ [c])) : P (sequence cs) c :=
  hP cs c List.prefix_rfl

lemma AllAlong.nil : AllAlong P [] := by
  intro cs' c hpre
  simp at hpre

lemma AllAlong.snoc (hP : AllAlong P cs) (hc : P (sequence cs) c) : AllAlong P (cs ++ [c]) := by
  intro cs' c' hpre
  rcases List.prefix_concat_iff.mp hpre with heq | hpre
  · obtain ⟨rfl, rfl⟩ := List.append_singleton_inj.mp heq
    exact hc
  · exact hP cs' c' hpre

/-- **A run** leads to the chain of the sequence its calls leave. -/
lemma run_linked {s₀ : DListState} (h₀ : Linked h s₀ []) (hproper : AllAlong DListCall.Proper cs)
    (hfits : AllAlong DListCall.Fits cs) (hrun : Reaches DListStep s₀ cs s) :
    Linked h s (sequence cs) := by
  refine hrun.induct (P := fun cs s => AllAlong DListCall.Proper cs → AllAlong DListCall.Fits cs →
    Linked h s (sequence cs)) (fun _ _ => h₀) (fun cs s c s' _ ih hstep hproper hfits => ?_)
    hproper hfits
  rw [sequence_snoc]
  exact (ih hproper.of_snoc hfits.of_snoc).step hproper.last hfits.last hstep

/-- **The doubly linked list is a sequence.**  After every run of calls on a list made by
`InitList`, as long as the nodes are no more than an `int` counts, the list is well formed and
represents the sequence the calls leave.  The next call, given a fresh address, returns what it is
to return, and leaves a well-formed list for what it makes of the sequence. -/
theorem dlist_sequence {a : ℕ} {junk : Node} {m : Mem Node} {s₀ : DListState}
    (hinit : initList a junk m = some (s₀.list, s₀.mem)) (hproper : AllAlong DListCall.Proper cs)
    (hfits : AllAlong DListCall.Fits cs) (hrun : Reaches DListStep s₀ cs s) :
    WellFormed a s (sequence cs)
      ∧ ∀ c : DListCall, c.Proper (sequence cs) → c.Fits (sequence cs) → c.Fresh s.mem →
        ∃ s', c.Yields s (c.result (sequence cs)) s' ∧ WellFormed a s' (c.apply (sequence cs)) := by
  have hs := run_linked (initList_linked hinit) hproper hfits hrun
  refine ⟨hs.wellFormed, fun c hc hfit hfresh => ?_⟩
  obtain ⟨s', hyields, hs', -⟩ := DListCall.simulates hs hc hfit hfresh
  exact ⟨s', hyields, hs'.wellFormed⟩

/-! ### Two runs -/

/-- What the allocator leaves in a cell, in the runs that follow. -/
def dlistJunk : Node := ⟨7, some 7, some 7⟩

/-- `InitList` with nothing allocated. -/
def dlistStart : DListState :=
  ⟨⟨some 0, some 0, 0⟩, Function.update (fun _ => none) 0 (some ⟨0, none, none⟩)⟩

lemma initList_dlistStart :
    initList 0 dlistJunk (fun _ => none) = some (dlistStart.list, dlistStart.mem) := by
  simp [initList, makeNode, Mem.malloc, Mem.modify, LinkNode.setPrevious, LinkNode.setNext,
    dlistStart]

/-- A node is inserted and removed again. -/
theorem dlist_sequence_push_pop :
    ∃ s s', Reaches DListStep dlistStart [.insFirst 5 1 dlistJunk] s
      ∧ WellFormed 0 s [(1, 5)] ∧ DListCall.remove.Yields s (some 1) s' ∧ WellFormed 0 s' [] := by
  have hproper : DListCall.Proper [] (.insFirst 5 1 dlistJunk) := trivial
  have hfits : DListCall.Fits [] (.insFirst 5 1 dlistJunk) := by simp [DListCall.Fits]
  obtain ⟨-, hnext⟩ := dlist_sequence initList_dlistStart .nil .nil .start
  obtain ⟨s, hyields, hs⟩ := hnext (.insFirst 5 1 dlistJunk) hproper hfits rfl
  have hrun : Reaches DListStep dlistStart [.insFirst 5 1 dlistJunk] s := .step .start ⟨_, hyields⟩
  obtain ⟨-, hnext⟩ :=
    dlist_sequence initList_dlistStart (.snoc .nil hproper) (.snoc .nil hfits) hrun
  obtain ⟨s', hyields', hs'⟩ := hnext .remove trivial trivial trivial
  exact ⟨s, s', hrun, hs, hyields', hs'⟩

/-- Insertions at the front, one after the other. -/
def pushes (n : ℕ) : List DListCall :=
  (List.range n).map fun k => .insFirst 0 (k + 1) dlistJunk

lemma pushes_succ (n : ℕ) : pushes (n + 1) = pushes n ++ [.insFirst 0 (n + 1) dlistJunk] := by
  simp [pushes, List.range_succ]

/-- Up to the largest `int`, the insertions leave a chain. -/
lemma pushes_run {n : ℕ} (hn : n ≤ 2147483647) :
    ∃ s, Reaches DListStep dlistStart (pushes n) s ∧ Linked 0 s (sequence (pushes n))
      ∧ (sequence (pushes n)).length = n ∧ (∀ b ∈ (sequence (pushes n)).map Prod.fst, b ≤ n)
      ∧ ∀ b, n < b → s.mem b = none := by
  induction n with
  | zero =>
      refine ⟨dlistStart, .start, initList_linked initList_dlistStart, rfl,
        by simp [pushes, sequence], fun b hb => ?_⟩
      have hne : b ≠ 0 := by omega
      simp [dlistStart, hne]
  | succ n ih =>
      obtain ⟨s, hrun, hs, hlen, hle, hfresh⟩ := ih (by omega)
      obtain ⟨s', hyields, hs', hrest⟩ :=
        insFirst_spec hs (by omega) (hfresh (n + 1) (by omega)) 0 dlistJunk
      rw [pushes_succ, sequence_snoc]
      refine ⟨s', .step hrun ⟨_, hyields⟩, hs', ?_, ?_, fun b hb => ?_⟩
      · exact congrArg (· + 1) hlen
      · intro b hb
        rcases List.mem_cons.mp hb with rfl | hb
        · exact le_rfl
        · exact (hle b hb).trans (Nat.le_succ n)
      · rw [hrest b ?_, hfresh b (by omega)]
        intro hmem
        simp only [List.mem_cons] at hmem
        rcases hmem with rfl | rfl | hmem
        · omega
        · omega
        · have := hle b hmem
          omega

/-- The counter of `LocatePos` never gets past the largest `int`. -/
lemma locateLoop_max {m : Mem Node} {fuel : ℕ} {cnt : ℤ} {p : Ptr} :
    locateLoop 2147483647 m fuel cnt p = none := by
  induction fuel generalizing cnt p with
  | zero => rfl
  | succ fuel ih =>
      have hle : toInt32 (cnt + 1) ≤ 2147483647 := (isInt32_toInt32 _).2
      rw [locateLoop, if_pos hle]
      cases hnext : m.read p LinkNode.next with
      | none => rfl
      | some q => exact ih

/-- **The largest `int`**: with one insertion more `size` is not the number of data nodes, and with
as many data nodes `LocatePos` does not return the last one. -/
theorem dlist_overflow :
    (¬ ∀ cs s, AllAlong DListCall.Proper cs → Reaches DListStep dlistStart cs s →
        WellFormed 0 s (sequence cs))
      ∧ ∃ s, Reaches DListStep dlistStart (pushes 2147483647) s
        ∧ ∀ p s', ¬ (DListCall.locatePos 2147483647).Yields s p s' := by
  obtain ⟨n, hn⟩ : ∃ n, n = 2147483647 := ⟨_, rfl⟩
  obtain ⟨s, hrun, hs, hlen, -, hfresh⟩ := pushes_run hn.le
  refine ⟨fun hclaim => ?_, s, hn ▸ hrun, fun p s' hyields => ?_⟩
  · obtain ⟨s', hyields, hlist, -⟩ := insFirst_run hs (hfresh (n + 1) (by omega)) 0 dlistJunk
    have hproper : ∀ n, AllAlong DListCall.Proper (pushes n) := by
      intro n
      induction n with
      | zero => exact .nil
      | succ n ih => exact pushes_succ n ▸ .snoc ih trivial
    have hrun' : Reaches DListStep dlistStart (pushes (n + 1)) s' := by
      rw [pushes_succ]
      exact .step hrun ⟨_, hyields⟩
    have hsize := (hclaim _ s' (hproper _) hrun').size
    rw [hlist, hlen, pushes_succ, sequence_snoc, DListCall.apply, List.length_cons, hlen,
      hn] at hsize
    revert hsize
    decide
  · obtain ⟨fuel, hret⟩ := hyields
    have e : (locatePos fuel s.list 2147483647 s.mem).bind (fun p => some (p, s.list, s.mem))
        = some (p, s'.list, s'.mem) := hret fuel le_rfl
    rw [locatePos, hs.size, hlen, hn, if_neg (by decide), locateLoop_max] at e
    cases e

end Wgs
