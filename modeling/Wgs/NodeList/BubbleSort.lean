import Wgs.Foundation.Merging
import Wgs.NodeList.Swap

/-!
`singly-linked-list/bubble-sort/main.c`: bubble sort of a list by exchanging its nodes.

`cur` stays with a node while `list_swap` moves it towards the end, and `wall` is the first node of
the sorted part.  A pass carries a greatest node up to the wall, and the node that it ends at is the
new wall (`bubblePass_ends`); the loop stops after the pass that finds a single node in front of the
wall (`bubbleLoop_ends`).
-/

namespace Wgs.NodeList

open Foundation

/-! ### The program -/

section Program

variable (d : ℕ) (junk : ℕ → Node)

/-- `while(cur->next != wall)`, over the memory, `*head`, `cur` and `leave`; `d` is the address of
the dummy node of `list_swap`. -/
def bubblePass (wall : Ptr) : ℕ → Mem Node × Ptr × Ptr × ℤ → Option (Mem Node × Ptr × Ptr × ℤ) :=
  whileLoop
    (fun (m, _, cur, _) => do return (← m.read cur SingleNode.next) ≠ wall)
    (fun fuel (m, head, cur, _) => do
      let leave := 0
      if (← m.read cur SingleNode.data)
          > (← m.read (← m.read cur SingleNode.next) SingleNode.data) then
        let (_, head, m) ←
          listSwap fuel d (junk d) m head cur (← m.read cur SingleNode.next)
        return (m, head, cur, leave)
      else return (m, head, ← m.read cur SingleNode.next, leave))

/-- `while(!leave)`, over the memory, `*head`, `wall` and `leave`. -/
def bubbleLoop : ℕ → Mem Node × Ptr × Ptr × ℤ → Option (Mem Node × Ptr × Ptr × ℤ) :=
  whileLoop
    (fun (_, _, _, leave) => return leave = 0)
    (fun fuel (m, head, wall, _) => do
      let leave := 1
      let cur := head
      let (m, head, cur, leave) ← bubblePass d junk wall fuel (m, head, cur, leave)
      let wall := cur
      return (m, head, wall, leave))

/-- `bubble_sort`: `*head` and the memory. -/
def bubbleSort (fuel : ℕ) (head : Ptr) (m : Mem Node) : Option (Ptr × Mem Node) := do
  let wall := none
  let leave := 0
  let (m, head, _, _) ← bubbleLoop d junk fuel (m, head, wall, leave)
  return (head, m)

/-- The calls of `list_append` that build a list; each item is a value with the address that the
allocator answers. -/
def appendAll (fuel : ℕ) : List (ℕ × ℤ) → Ptr → Mem Node → Option (Ptr × Mem Node)
  | [], list, m => some (list, m)
  | (a, val) :: items, list, m => do
      let (list, _, m) ← listAppend fuel list val a (junk a) m
      appendAll fuel items list m

end Program

variable {c d : ℕ} {junk : ℕ → Node} {v : ℤ} {m : Mem Node} {head : Ptr}
  {xs ys L P W items : List (ℕ × ℤ)}

/-! ### A pass -/

/-- The test of the pass: the wall is not next while there are nodes in front of it. -/
lemma next_ne_wall {b : ℕ} {w : ℤ} (hchain : m.Chain head (xs ++ (c, v) :: (b, w) :: ys ++ W)) :
    some b ≠ firstOf none W := fun heq => by
  have hnodup := hchain.nodup
  rw [List.map_append, List.nodup_append'] at hnodup
  cases W with
  | nil => cases heq
  | cons e W =>
      have hmem : b ∈ (e :: W).map Prod.fst := by simp [Option.some_inj.mp heq]
      exact hnodup.2.2 (by simp) hmem

/-- **One iteration**: `cur` is moved past the next node, or the next node becomes `cur`. -/
lemma bubbleBody_ends {b : ℕ} {w : ℤ} (hchain : m.Chain head (xs ++ (c, v) :: (b, w) :: ys ++ W))
    (hd : m d = none) (hmax : ∀ u ∈ xs, u.2 ≤ v) :
    Ends (fun fuel => do
        if v > w then
          let (_, head, m) ← listSwap fuel d (junk d) m head (some c) (some b)
          return (m, head, some c, (0 : ℤ))
        else return (m, head, some b, 0)) fun (m', head', cur, leave) =>
      ∃ xs' c' v', cur = some c' ∧ leave = 0 ∧ m'.Chain head' (xs' ++ (c', v') :: ys ++ W)
        ∧ StablyRearranged Prod.snd (xs ++ (c, v) :: (b, w) :: ys) (xs' ++ (c', v') :: ys)
        ∧ (∀ u ∈ xs', u.2 ≤ v')
        ∧ ∀ e ∉ (xs ++ (c, v) :: (b, w) :: ys ++ W).map Prod.fst, m' e = m e := by
  by_cases hlt : w < v
  · have hL : xs ++ (c, v) :: (b, w) :: ys ++ W
        = xs ++ (c, v) :: [] ++ (b, w) :: (ys ++ W) := by simp
    rw [hL] at hchain ⊢
    simp only [gt_iff_lt, hlt, if_true]
    refine Ends.bind (listSwap_spec hchain hd (junk d)) fun r hr => ?_
    obtain ⟨ret, head₁, m₁⟩ := r
    obtain ⟨-, hchain₁, hrest₁⟩ := hr
    refine .of_eq (fun _ => rfl) ⟨xs ++ [(b, w)], c, v, rfl, rfl, by simpa using hchain₁, ?_, ?_,
      hrest₁⟩
    · rw [List.append_assoc]
      exact .swap hlt.ne'
    · exact List.forall_mem_append.mpr ⟨hmax, List.forall_mem_singleton.mpr hlt.le⟩
  · have hle : v ≤ w := not_lt.mp hlt
    have hL : xs ++ (c, v) :: (b, w) :: ys = xs ++ [(c, v)] ++ (b, w) :: ys := by simp
    rw [hL] at hchain ⊢
    simp only [gt_iff_lt, hlt, if_false]
    exact .of_eq (fun _ => rfl) ⟨xs ++ [(c, v)], b, w, rfl, rfl, hchain, .refl _ _,
      List.forall_mem_append.mpr
        ⟨fun u hu => (hmax u hu).trans hle, List.forall_mem_singleton.mpr hle⟩, fun _ _ => rfl⟩

/-- **A pass carries a greatest node up to the wall.** -/
lemma bubblePass_ends (hchain : m.Chain head (xs ++ (c, v) :: ys ++ W)) (hd : m d = none)
    (hmax : ∀ u ∈ xs, u.2 ≤ v) (leave : ℤ) :
    Ends (fun fuel => bubblePass d junk (firstOf none W) fuel (m, head, some c, leave))
      fun (m', head', cur, leave') => ∃ P c' v', cur = some c'
        ∧ m'.Chain head' (P ++ (c', v') :: W)
        ∧ StablyRearranged Prod.snd (xs ++ (c, v) :: ys) (P ++ [(c', v')])
        ∧ (∀ u ∈ P, u.2 ≤ v') ∧ leave' = (if ys = [] then leave else 0)
        ∧ ∀ b ∉ (xs ++ (c, v) :: ys ++ W).map Prod.fst, m' b = m b := by
  induction ys generalizing m head xs c v leave with
  | nil =>
      rw [List.append_assoc] at hchain
      have hc : m c = some ⟨v, firstOf none W⟩ := hchain.nodes.node
      refine Ends.whileLoop_false (by simp [Mem.read_eq hc]) ?_
      exact ⟨xs, c, v, rfl, hchain, .refl _ _, hmax, by rw [if_pos rfl], fun _ _ => rfl⟩
  | cons u ys ih =>
      obtain ⟨b, w⟩ := u
      have htail := hchain
      rw [List.append_assoc] at htail
      have hc : m c = some ⟨v, some b⟩ := htail.drop.head
      have hb : m b = some ⟨w, firstOf none (ys ++ W)⟩ := htail.drop.tail.head
      refine Ends.whileLoop_true (by simp [Mem.read_eq hc, next_ne_wall hchain]) ?_
      simp only [Mem.read_eq hc, Mem.read_eq hb, Option.bind_eq_bind, Option.bind_some]
      refine (bubbleBody_ends hchain hd hmax).mono fun r hr => ?_
      obtain ⟨m₁, head₁, cur, leave₁⟩ := r
      obtain ⟨xs', c', v', rfl, rfl, hchain₁, hstable₁, hmax₁, hrest₁⟩ := hr
      have hd₁ : m₁ d = none := (hrest₁ d (hchain.not_mem hd)).trans hd
      refine (ih hchain₁ hd₁ hmax₁ 0).mono fun r hr => ?_
      obtain ⟨P, c'', v'', hcur, hchain', hstable, hmax', hleave, hrest⟩ := hr
      refine ⟨P, c'', v'', hcur, hchain', hstable₁.trans hstable, hmax', by simpa using hleave,
        fun e he => (hrest e ?_).trans (hrest₁ e he)⟩
      rwa [((hstable₁.append_right W).perm.map _).mem_iff]

/-! ### The loop -/

/-- **Every pass moves the wall to the node in front of it**, until one node is left there. -/
lemma bubbleLoop_ends (hne : P ≠ []) (hchain : m.Chain head (P ++ W)) (hd : m d = none)
    (hasc : Ascending Prod.snd W) (hwall : ∀ u ∈ P, ∀ w ∈ W, u.2 ≤ w.2) :
    Ends (fun fuel => bubbleLoop d junk fuel (m, head, firstOf none W, 0))
      fun (m', head', _, _) => ∃ L, StablySorted Prod.snd (P ++ W) L ∧ m'.Chain head' L
        ∧ ∀ b ∉ (P ++ W).map Prod.fst, m' b = m b := by
  induction hn : P.length using Nat.strong_induction_on generalizing P W m head with
  | _ n ih =>
      obtain ⟨⟨c, v⟩, ys, rfl⟩ := List.exists_cons_of_ne_nil hne
      obtain rfl := hchain.first
      refine Ends.whileLoop_true rfl ?_
      have hstart : m.Chain (some c) ([] ++ (c, v) :: ys ++ W) := hchain
      refine Ends.bind (bubblePass_ends hstart hd (by simp) 1) fun r hr => ?_
      obtain ⟨m₁, head₁, cur, leave⟩ := r
      obtain ⟨P, c', v', rfl, hchain₁, hP, hmax, hleave, hrest₁⟩ := hr
      rw [List.nil_append] at hP hrest₁
      have hlen : P.length = ys.length := by simpa using hP.perm.length_eq
      have hmem : ∀ u ∈ P ++ [(c', v')], u ∈ (c, v) :: ys := fun u hu => hP.perm.mem_iff.mp hu
      have hasc₁ : Ascending Prod.snd ((c', v') :: W) :=
        List.pairwise_cons.mpr ⟨fun w hw => hwall (c', v') (hmem _ (by simp)) w hw, hasc⟩
      have hstable := hP.append_right W
      rw [List.append_assoc, List.singleton_append] at hstable
      by_cases hys : ys = []
      · rw [if_pos hys] at hleave
        obtain rfl : P = [] := List.length_eq_zero_iff.mp (by rw [hlen, hys]; rfl)
        refine .of_eq (fun _ => rfl) (Ends.whileLoop_false (by simp [hleave]) ?_)
        exact ⟨(c', v') :: W, hstable.sorted hasc₁, hchain₁, hrest₁⟩
      · rw [if_neg hys] at hleave
        subst hleave
        have hd₁ : m₁ d = none := (hrest₁ d (hchain.not_mem hd)).trans hd
        have hlt : P.length < n := by rw [hlen, ← hn, List.length_cons]; exact Nat.lt_succ_self _
        have hne₁ : P ≠ [] := fun hnil => by
          rw [hnil, List.length_nil] at hlen
          exact hys (List.length_eq_zero_iff.mp hlen.symm)
        have hwall₁ : ∀ u ∈ P, ∀ w ∈ (c', v') :: W, u.2 ≤ w.2 := fun u hu =>
          List.forall_mem_cons.mpr ⟨hmax u hu, hwall u (hmem u (List.mem_append_left _ hu))⟩
        refine .of_eq (fun _ => rfl)
          ((ih P.length hlt hne₁ hchain₁ hd₁ hasc₁ hwall₁ rfl).mono fun r hr => ?_)
        obtain ⟨L, hL, hchain', hrest⟩ := hr
        refine ⟨L, hstable.trans_sorted hL, hchain', fun b hb => (hrest b ?_).trans (hrest₁ b hb)⟩
        rwa [(hstable.perm.map _).mem_iff]

/-- `bubble_sort` of a list that is not empty. -/
lemma bubbleSort_ends (hne : L ≠ []) (hchain : m.Chain head L) (hd : m d = none) :
    Ends (fun fuel => bubbleSort d junk fuel head m) fun (head', m') =>
      ∃ L', StablySorted Prod.snd L L' ∧ m'.Chain head' L'
        ∧ ∀ b ∉ L.map Prod.fst, m' b = m b := by
  rw [← List.append_nil L] at hchain ⊢
  refine Ends.bind (bubbleLoop_ends hne hchain hd .nil (by simp)) fun r hr => ?_
  exact .of_eq (fun _ => rfl) hr

/-! ### The lists that are built -/

/-- The calls of `list_append` make the chain of their items. -/
lemma appendAll_ends (hchain : m.Chain head L) (hnew : ∀ a ∈ items.map Prod.fst, m a = none)
    (hnodup : (items.map Prod.fst).Nodup) :
    Ends (fun fuel => appendAll junk fuel items head m) fun (list, m') =>
      m'.Chain list (L ++ items) ∧ ∀ b ∉ (L ++ items).map Prod.fst, m' b = m b := by
  induction items generalizing m head L with
  | nil =>
      refine .of_eq (r := (head, m)) (fun _ => rfl) ⟨?_, fun _ _ => rfl⟩
      rwa [List.append_nil]
  | cons c items ih =>
      obtain ⟨a, val⟩ := c
      rw [List.map_cons, List.forall_mem_cons] at hnew
      rw [List.map_cons, List.nodup_cons] at hnodup
      refine Ends.bind (listAppend_spec hchain hnew.1 val (junk a)) fun r hr => ?_
      obtain ⟨list, new, m₁⟩ := r
      obtain ⟨-, hchain₁, hrest₁⟩ := hr
      have hnew₁ : ∀ b ∈ items.map Prod.fst, m₁ b = none := fun b hb => by
        rw [hrest₁ b, hnew.2 b hb]
        rw [List.mem_cons, not_or]
        exact ⟨ne_of_mem_of_not_mem hb hnodup.1, hchain.not_mem (hnew.2 b hb)⟩
      refine (ih hchain₁ hnew₁ hnodup.2).mono fun r hr => ?_
      rw [List.append_assoc, List.singleton_append] at hr
      refine ⟨hr.1, fun b hb => (hr.2 b hb).trans (hrest₁ b ?_)⟩
      simp only [List.map_append, List.map_cons, List.mem_append, List.mem_cons] at hb ⊢
      tauto

/-- **`bubble_sort` sorts the lists that `list_append` builds**, by relinking their nodes: the list
is a stable sorting of the nodes that were appended, and ends in `NULL`. -/
theorem bubbleSort_sorts (hne : items ≠ []) (hnew : ∀ a ∈ items.map Prod.fst, m a = none)
    (hnodup : (items.map Prod.fst).Nodup) (hd : m d = none) (hd_new : d ∉ items.map Prod.fst) :
    Ends (fun fuel => do
        let (list, m) ← appendAll junk fuel items none m
        bubbleSort d junk fuel list m) fun (head, m') =>
      ∃ L, StablySorted Prod.snd items L ∧ m'.Chain head L
        ∧ ∀ b ∉ items.map Prod.fst, m' b = m b := by
  have hnil : m.Chain none [] := ⟨rfl, Mem.holds_nil _⟩
  refine Ends.bind (appendAll_ends hnil hnew hnodup) fun r hr => ?_
  obtain ⟨list, m₁⟩ := r
  rw [List.nil_append] at hr
  obtain ⟨hchain, hrest₁⟩ := hr
  refine (bubbleSort_ends hne hchain ((hrest₁ d hd_new).trans hd)).mono fun r hr => ?_
  obtain ⟨L, hL, hchain', hrest⟩ := hr
  exact ⟨L, hL, hchain', fun b hb => (hrest b hb).trans (hrest₁ b hb)⟩

/-- Four nodes, two of them with the same value. -/
theorem bubbleSort_sorts_four :
    Ends (fun fuel => do
        let (list, m) ← appendAll (fun _ => ⟨0, none⟩) fuel [(1, 3), (2, 1), (3, 3), (4, 2)] none
          (fun _ => none)
        bubbleSort 5 (fun _ => ⟨0, none⟩) fuel list m) fun (head, m) =>
      ∃ L, StablySorted Prod.snd [(1, 3), (2, 1), (3, 3), (4, 2)] L ∧ m.Chain head L
        ∧ ∀ b ∉ [1, 2, 3, 4], m b = none :=
  bubbleSort_sorts (by decide) (fun _ _ => rfl) (by decide) rfl (by decide)

end Wgs.NodeList
