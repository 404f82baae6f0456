import Wgs.Foundation.Loops
import Wgs.Foundation.Merging
import Wgs.Foundation.SinglyLinked

/-!
`singly-linked-list/merge-sort/main.c`: merge sort of a list by relinking its nodes.

`FrontBackSplit` walks one pointer at twice the speed of the other and cuts the list behind the
slow one, `SortedMerge` relinks two lists node by node in a recursion, and `MergeSort` sorts the two
halves and merges them.  The list that it leaves is the merge sort of the list of its nodes
(`mergeSort_ends`).
-/

namespace Wgs.NodeList.MergeSort

open Foundation

/-! ### The program -/

/-- `struct node`: `data`, an `int`, and `next`. -/
abbrev Node := SingleNode ℤ

/-- `while (fast != NULL)`, over `slow` and `fast`. -/
def splitLoop (m : Mem Node) : ℕ → Ptr × Ptr → Option (Ptr × Ptr) :=
  whileLoop
    (fun (_, fast) => return fast ≠ none)
    (fun _ (slow, fast) => do
      let fast ← m.read fast SingleNode.next
      if fast ≠ none then
        let slow ← m.read slow SingleNode.next
        let fast ← m.read fast SingleNode.next
        return (slow, fast)
      else return (slow, fast))

/-- `FrontBackSplit`: `*frontRef`, `*backRef` and the memory. -/
def frontBackSplit (fuel : ℕ) (source : Ptr) (m : Mem Node) : Option (Ptr × Ptr × Mem Node) := do
  if source = none then return (source, none, m)
  if (← m.read source SingleNode.next) = none then return (source, none, m)
  let slow := source
  let fast ← m.read source SingleNode.next
  let (slow, _) ← splitLoop m fuel (slow, fast)
  let backRef ← m.read slow SingleNode.next
  let m ← m.modify slow (SingleNode.setNext none)
  return (source, backRef, m)

/-- `SortedMerge`: its result and the memory. -/
def sortedMerge : ℕ → Ptr → Ptr → Mem Node → Option (Ptr × Mem Node)
  | 0, _, _, _ => none
  | fuel + 1, a, b, m => do
      if a = none then return (b, m)
      if b = none then return (a, m)
      if (← m.read a SingleNode.data) ≤ (← m.read b SingleNode.data) then
        let result := a
        let (next, m) ← sortedMerge fuel (← m.read a SingleNode.next) b m
        let m ← m.modify result (SingleNode.setNext next)
        return (result, m)
      else
        let result := b
        let (next, m) ← sortedMerge fuel a (← m.read b SingleNode.next) m
        let m ← m.modify result (SingleNode.setNext next)
        return (result, m)

/-- `MergeSort`: `*headRef` and the memory. -/
def mergeSort : ℕ → Ptr → Mem Node → Option (Ptr × Mem Node)
  | 0, _, _ => none
  | fuel + 1, head, m => do
      if head = none then return (head, m)
      if (← m.read head SingleNode.next) = none then return (head, m)
      let (a, b, m) ← frontBackSplit fuel head m
      let (a, m) ← mergeSort fuel a m
      let (b, m) ← mergeSort fuel b m
      sortedMerge fuel a b m

variable {a b c : ℕ} {v x y : ℤ} {m : Mem Node} {p q head : Ptr}
  {us xs ys zs A B L : List (ℕ × ℤ)}

/-! ### The split -/

/-- **The slow pointer ends at the last node of the front half.** -/
lemma splitLoop_ends (hnodes : m.Holds (links (xs ++ (c, v) :: us ++ zs) none))
    (hlen : us.length = xs.length) :
    Ends (fun fuel => splitLoop m fuel (some c, firstOf none zs)) fun (slow, _) =>
      ∃ xs' c' v' ys, slow = some c' ∧ xs ++ (c, v) :: us ++ zs = xs' ++ (c', v') :: ys
        ∧ (xs'.length + ys.length + 2) / 2 = xs'.length + 1 := by
  induction hn : zs.length using Nat.strong_induction_on generalizing xs c v us zs with
  | _ n ih =>
      match zs with
      | [] =>
          refine Ends.whileLoop_false rfl ⟨xs, c, v, us, rfl, by simp, by omega⟩
      | [(e, w)] =>
          have he : m e = some ⟨w, none⟩ := hnodes.node
          refine Ends.whileLoop_true rfl (.of_eq (fun _ => by simp [Mem.read_eq he]; rfl) ?_)
          refine Ends.whileLoop_false rfl ⟨xs, c, v, us ++ [(e, w)], rfl, by simp, ?_⟩
          rw [List.length_append, List.length_singleton]
          omega
      | (e, w) :: (f, u) :: zs =>
          obtain ⟨⟨c', v'⟩, us', hus⟩ : ∃ c us', us ++ [(e, w), (f, u)] = c :: us' :=
            List.exists_cons_of_ne_nil (by simp)
          have hL : xs ++ (c, v) :: us ++ (e, w) :: (f, u) :: zs
              = xs ++ [(c, v)] ++ (c', v') :: us' ++ zs := by
            rw [List.append_assoc (xs ++ [(c, v)]), List.cons_append, ← List.cons_append, ← hus]
            simp
          have he : m e = some ⟨w, some f⟩ := hnodes.node
          have hf : m f = some ⟨u, firstOf none zs⟩ := by
            rw [links_append, Mem.holds_append] at hnodes
            exact (Mem.holds_cons.mp hnodes.2).2.head
          rw [hL] at hnodes ⊢
          have hc : m c = some ⟨v, some c'⟩ := by
            rw [List.append_assoc, List.append_assoc, links_append, Mem.holds_append] at hnodes
            exact hnodes.2.head
          refine Ends.whileLoop_true rfl
            (.of_eq (fun _ => by simp [Mem.read_eq he, Mem.read_eq hc, Mem.read_eq hf]; rfl) ?_)
          have hlen' : us'.length = (xs ++ [(c, v)]).length := by
            have := congrArg List.length hus
            simp only [List.length_append, List.length_cons, List.length_nil] at this ⊢
            omega
          have hshort : zs.length < n := by
            rw [← hn, List.length_cons, List.length_cons]
            omega
          exact ih zs.length hshort hnodes hlen' rfl

/-- **`FrontBackSplit` cuts a list of `n` nodes, two at least, behind the first `⌈n / 2⌉`.** -/
lemma frontBackSplit_ends (hchain : m.Chain p L) (hlen : 2 ≤ L.length) :
    Ends (fun fuel => frontBackSplit fuel p m) fun (front, back, m') =>
      m'.Chain front (L.take ((L.length + 1) / 2)) ∧ m'.Chain back (L.drop ((L.length + 1) / 2))
        ∧ ∀ b ∉ L.map Prod.fst, m' b = m b := by
  obtain ⟨⟨c, v⟩, ⟨c', v'⟩, zs, rfl⟩ : ∃ x y zs, L = x :: y :: zs := by
    match L, hlen with
    | x :: y :: zs, _ => exact ⟨x, y, zs, rfl⟩
  obtain rfl := hchain.first
  have hc : m c = some ⟨v, some c'⟩ := hchain.head
  simp only [frontBackSplit, firstOf_cons, reduceCtorEq, if_false, Mem.read_eq hc,
    Option.bind_eq_bind, Option.bind_some]
  have hstart : m.Holds (links ([] ++ (c, v) :: [] ++ (c', v') :: zs) none) := hchain.nodes
  refine Ends.bind (splitLoop_ends hstart rfl) fun r hr => ?_
  obtain ⟨slow, fast⟩ := r
  obtain ⟨xs, e, w, ys, rfl, hL, hhalf⟩ := hr
  rw [List.nil_append, List.singleton_append] at hL
  have hcut : (c, v) :: (c', v') :: zs = xs ++ [(e, w)] ++ ys := by rw [hL]; simp
  have hnum : (((c, v) :: (c', v') :: zs).length + 1) / 2 = (xs ++ [(e, w)]).length := by
    simp only [hL, List.length_append, List.length_cons, List.length_nil]
    omega
  rw [hnum, hcut, List.take_left, List.drop_left]
  rw [hcut] at hchain
  have hnodes := hchain.nodes
  have hnodup := hchain.nodup
  rw [links_append, Mem.holds_append] at hnodes
  rw [List.map_append, List.nodup_append'] at hnodup
  have he : m e = some ⟨w, firstOf none ys⟩ := hnodes.1.node
  obtain ⟨m', hlink, hfront, hrest⟩ := hnodes.1.linkLast (p := none) hnodup.1 (by simp) none
  rw [lastOf_append, lastOf_cons, lastOf_nil] at hlink
  refine .of_eq (r := (some c, firstOf none ys, m')) (fun _ => by simp [Mem.read_eq he, hlink])
    ⟨⟨?_, hfront⟩, ⟨rfl, ?_⟩, fun b hb => hrest b fun hmem => hb ?_⟩
  · have hfirst : some c = firstOf none (xs ++ [(e, w)] ++ ys) := congrArg (firstOf none) hcut
    rw [firstOf_append, firstOf_append] at hfirst
    rw [firstOf_append]
    exact hfirst
  · refine hnodes.2.frame fun b hb => hrest b fun hmem => hnodup.2.2 hmem ?_
    rwa [map_fst_links] at hb
  · rw [List.map_append]
    exact List.mem_append_left _ hmem

/-! ### The merge -/

/-- `result->next = ...; return(result);` with a list that is merged from the others. -/
lemma linkResult_ends {f : ℕ → Option (Ptr × Mem Node)}
    (h : Ends f fun (next, m') => m'.Chain next L ∧ ∀ b ∉ L.map Prod.fst, m' b = m b)
    (ha : m a = some ⟨x, q⟩) (hnew : a ∉ L.map Prod.fst) :
    Ends (fun fuel => do
        let (next, m) ← f fuel
        let m ← m.modify (some a) (SingleNode.setNext next)
        return (some a, m)) fun (result, m') =>
      m'.Chain result ((a, x) :: L) ∧ ∀ b ∉ ((a, x) :: L).map Prod.fst, m' b = m b := by
  refine h.bind fun r hr => ?_
  obtain ⟨next, m₁⟩ := r
  obtain ⟨hchain₁, hrest₁⟩ := hr
  obtain ⟨m₂, hlink, hchain₂, hrest₂⟩ := hchain₁.push ((hrest₁ a hnew).trans ha) hnew
  refine .of_eq (r := (some a, m₂)) (fun _ => by simp [hlink]) ⟨hchain₂, fun b hb => ?_⟩
  rw [List.map_cons, List.mem_cons, not_or] at hb
  exact (hrest₂ b hb.1).trans (hrest₁ b hb.2)

/-- **`SortedMerge` relinks the nodes of two lists to their merge.** -/
lemma sortedMerge_ends (hA : m.Chain p A) (hB : m.Chain q B)
    (hdisj : (A.map Prod.fst).Disjoint (B.map Prod.fst)) :
    Ends (fun fuel => sortedMerge fuel p q m) fun (result, m') =>
      m'.Chain result (A.merge B (keyLe Prod.snd))
        ∧ ∀ b ∉ (A.merge B (keyLe Prod.snd)).map Prod.fst, m' b = m b := by
  induction hn : A.length + B.length using Nat.strong_induction_on generalizing p q A B with
  | _ n ih =>
      refine Ends.of_succ ?_
      obtain rfl := hA.first
      obtain rfl := hB.first
      match A, B with
      | [], B =>
          refine .of_eq (r := (firstOf none B, m)) (fun _ => rfl) ⟨?_, fun _ _ => rfl⟩
          rwa [List.nil_merge]
      | (a, x) :: A, [] =>
          refine .of_eq (r := (some a, m)) (fun _ => rfl) ⟨?_, fun _ _ => rfl⟩
          rwa [List.merge_right]
      | (a, x) :: A, (b, y) :: B =>
          have ha : m a = some ⟨x, firstOf none A⟩ := hA.head
          have hb : m b = some ⟨y, firstOf none B⟩ := hB.head
          simp only [sortedMerge, firstOf_cons, reduceCtorEq, if_false, Mem.read_eq ha,
            Mem.read_eq hb, Option.bind_eq_bind, Option.bind_some]
          by_cases hle : x ≤ y
          · rw [List.cons_merge_cons_pos _ _ _ (decide_eq_true hle)]
            simp only [hle, if_true]
            rw [List.map_cons, List.disjoint_cons_left] at hdisj
            refine linkResult_ends
              (ih _ (by simp [← hn]) (hA.tail) hB hdisj.2 rfl) ha ?_
            rw [mem_map_merge, not_or]
            exact ⟨(List.nodup_cons.mp hA.nodup).1, hdisj.1⟩
          · rw [List.cons_merge_cons_neg _ _ _ (by simpa [keyLe] using hle)]
            simp only [hle, if_false]
            rw [List.map_cons (l := B), List.disjoint_cons_right] at hdisj
            refine linkResult_ends
              (ih _ (by simp [← hn]) hA (hB.tail) hdisj.2 rfl) hb ?_
            rw [mem_map_merge, not_or]
            exact ⟨hdisj.1, (List.nodup_cons.mp hB.nodup).1⟩

/-! ### The sort -/

/-- What `MergeSort` makes of every chain of the nodes `L`. -/
def Sorts (L : List (ℕ × ℤ)) : Prop :=
  ∀ (m : Mem Node) (head : Ptr), m.Chain head L →
    Ends (fun fuel => mergeSort fuel head m) fun (head', m') =>
      m'.Chain head' (L.mergeSort (keyLe Prod.snd)) ∧ ∀ b ∉ L.map Prod.fst, m' b = m b

/-- The two halves, sorted and merged. -/
lemma sortHalves_ends (hA : Sorts A) (hB : Sorts B) (hp : m.Chain p A) (hq : m.Chain q B)
    (hdisj : (A.map Prod.fst).Disjoint (B.map Prod.fst)) :
    Ends (fun fuel => do
        let (a, m) ← mergeSort fuel p m
        let (b, m) ← mergeSort fuel q m
        sortedMerge fuel a b m) fun (head, m') =>
      m'.Chain head ((A.mergeSort (keyLe Prod.snd)).merge (B.mergeSort (keyLe Prod.snd))
        (keyLe Prod.snd)) ∧ ∀ b ∉ (A ++ B).map Prod.fst, m' b = m b := by
  have hmemA : ∀ b, b ∈ (A.mergeSort (keyLe Prod.snd)).map Prod.fst ↔ b ∈ A.map Prod.fst :=
    fun b => ((List.mergeSort_perm A _).map _).mem_iff
  have hmemB : ∀ b, b ∈ (B.mergeSort (keyLe Prod.snd)).map Prod.fst ↔ b ∈ B.map Prod.fst :=
    fun b => ((List.mergeSort_perm B _).map _).mem_iff
  refine Ends.bind (hA m p hp) fun r hr => ?_
  obtain ⟨a, m₁⟩ := r
  obtain ⟨hp₁, hrest₁⟩ := hr
  have hq₁ : m₁.Chain q B := hq.frame fun b hb => hrest₁ b fun hmem => hdisj hmem hb
  refine Ends.bind (hB m₁ q hq₁) fun r hr => ?_
  obtain ⟨b, m₂⟩ := r
  obtain ⟨hq₂, hrest₂⟩ := hr
  have hp₂ : m₂.Chain a (A.mergeSort (keyLe Prod.snd)) :=
    hp₁.frame fun b hb => hrest₂ b fun hmem => hdisj ((hmemA b).mp hb) hmem
  have hdisj₂ : ((A.mergeSort (keyLe Prod.snd)).map Prod.fst).Disjoint
      ((B.mergeSort (keyLe Prod.snd)).map Prod.fst) :=
    fun b hb hb' => hdisj ((hmemA b).mp hb) ((hmemB b).mp hb')
  refine (sortedMerge_ends hp₂ hq₂ hdisj₂).mono fun r hr => ⟨hr.1, fun c hc => ?_⟩
  rw [List.map_append, List.mem_append, not_or] at hc
  rw [hr.2 c, hrest₂ c hc.2, hrest₁ c hc.1]
  rwa [mem_map_merge, hmemA, hmemB, not_or]

/-- **`MergeSort` leaves the merge sort of the list of the nodes.** -/
lemma mergeSort_ends (L : List (ℕ × ℤ)) : Sorts L := by
  induction hn : L.length using Nat.strong_induction_on generalizing L with
  | _ n ih =>
      intro m head hchain
      refine Ends.of_succ ?_
      obtain rfl := hchain.first
      match L with
      | [] =>
          refine .of_eq (r := (none, m)) (fun _ => rfl) ⟨?_, fun _ _ => rfl⟩
          rwa [List.mergeSort_nil]
      | [(c, v)] =>
          have hc : m c = some ⟨v, none⟩ := hchain.head
          refine .of_eq (r := (some c, m)) (fun _ => by simp [mergeSort, Mem.read_eq hc])
            ⟨?_, fun _ _ => rfl⟩
          rwa [List.mergeSort_singleton]
      | (c, v) :: (c', v') :: zs =>
          have hc : m c = some ⟨v, some c'⟩ := hchain.head
          simp only [mergeSort, firstOf_cons, reduceCtorEq, if_false, Mem.read_eq hc,
            Option.bind_eq_bind, Option.bind_some]
          have hlen : 2 ≤ ((c, v) :: (c', v') :: zs).length := by simp
          have hnodup := hchain.nodup
          refine Ends.bind (frontBackSplit_ends hchain hlen) fun r hr => ?_
          obtain ⟨front, back, m₁⟩ := r
          obtain ⟨hfront, hback, hrest₁⟩ := hr
          rw [mergeSort_eq_merge _ hlen rfl]
          generalize (c, v) :: (c', v') :: zs = L at *
          rw [← List.take_append_drop ((L.length + 1) / 2) L, List.map_append,
            List.nodup_append'] at hnodup
          have hA : Sorts (L.take ((L.length + 1) / 2)) :=
            ih _ (by rw [← hn, List.length_take]; omega) _ rfl
          have hB : Sorts (L.drop ((L.length + 1) / 2)) :=
            ih _ (by rw [← hn, List.length_drop]; omega) _ rfl
          refine (sortHalves_ends hA hB hfront hback hnodup.2.2).mono fun r hr =>
            ⟨hr.1, fun b hb => (hr.2 b ?_).trans (hrest₁ b hb)⟩
          rwa [List.take_append_drop]

/-- **`MergeSort` sorts every list that ends in `NULL`**, by relinking its nodes: the list is a
stable sorting of them.  `FrontBackSplit` cuts a list of `n ≥ 2` nodes into the first `⌈n / 2⌉` and
the last `⌊n / 2⌋`, and either part is shorter than the list. -/
theorem mergeSort_relinks (hchain : m.Chain head L) :
    Ends (fun fuel => mergeSort fuel head m) (fun (head', m') =>
      ∃ L', StablySorted Prod.snd L L' ∧ m'.Chain head' L' ∧ ∀ b ∉ L.map Prod.fst, m' b = m b)
    ∧ (2 ≤ L.length → Ends (fun fuel => frontBackSplit fuel head m) fun (front, back, m') =>
      ∃ xs ys, L = xs ++ ys ∧ xs.length = (L.length + 1) / 2 ∧ ys.length = L.length / 2
        ∧ xs.length < L.length ∧ ys.length < L.length
        ∧ m'.Chain front xs ∧ m'.Chain back ys ∧ ∀ b ∉ L.map Prod.fst, m' b = m b) := by
  refine ⟨(mergeSort_ends L m head hchain).mono fun r hr => ?_, fun hlen =>
    (frontBackSplit_ends hchain hlen).mono fun r hr => ?_⟩
  · exact ⟨_, stablySorted_mergeSort Prod.snd L, hr⟩
  · have htake : (L.take ((L.length + 1) / 2)).length = (L.length + 1) / 2 := by
      rw [List.length_take]
      omega
    have hdrop : (L.drop ((L.length + 1) / 2)).length = L.length / 2 := by
      rw [List.length_drop]
      omega
    exact ⟨_, _, (List.take_append_drop _ _).symm, htake, hdrop, by omega, by omega, hr⟩

/-- Three nodes, which are cut into two and one. -/
theorem mergeSort_relinks_three :
    Ends (fun fuel => mergeSort fuel (some 1) (Mem.ofCells (links [(1, 3), (2, 1), (3, 3)] none)))
      (fun (head, m) => ∃ L, StablySorted Prod.snd [(1, 3), (2, 1), (3, 3)] L ∧ m.Chain head L)
    ∧ Ends (fun fuel =>
        frontBackSplit fuel (some 1) (Mem.ofCells (links [(1, 3), (2, 1), (3, 3)] none)))
      fun (front, back, m) => ∃ xs ys, [(1, 3), (2, 1), (3, 3)] = xs ++ ys ∧ xs.length = 2
        ∧ m.Chain front xs ∧ m.Chain back ys := by
  have hchain : Mem.Chain (Mem.ofCells (links [(1, 3), (2, 1), (3, 3)] none)) (some 1)
    [(1, (3 : ℤ)), (2, 1), (3, 3)] := .ofCells (by decide)
  obtain ⟨hsort, hsplit⟩ := mergeSort_relinks hchain
  refine ⟨hsort.mono fun r hr => ?_, (hsplit (by decide)).mono fun r hr => ?_⟩
  · obtain ⟨L, hL, hchain', -⟩ := hr
    exact ⟨L, hL, hchain'⟩
  · obtain ⟨xs, ys, hL, hxs, -, -, -, hfront, hback, -⟩ := hr
    exact ⟨xs, ys, hL, hxs, hfront, hback⟩

end Wgs.NodeList.MergeSort
