import Wgs.Foundation.Loops
import Wgs.Foundation.SinglyLinked

/-!
`singly-linked-list/swap/main.c`: appending to a list, and exchanging two of its nodes.

`singly-linked-list/bubble-sort/main.c` has the same two functions.  A dummy node on the stack,
`new_head`, stands in front of the list while `list_swap` runs; it is a cell at an address `d` that
is not in use.  The two searches come before the first write, and the six assignments relink the
last node in front of `a`, the last node in front of `b`, `a` and `b` in this order: that is the
same whether `a` is in front of `b` or further away (`swapLinks_spec`).
-/

namespace Wgs.NodeList

open Foundation

/-! ### The program -/

/-- `List`: `val`, an `int`, and `next`. -/
abbrev Node := SingleNode ℤ

/-- `while(cur->next != NULL) { cur = cur->next; }` -/
def lastItem (m : Mem Node) : ℕ → Ptr → Option Ptr :=
  whileLoop (fun cur => do return (← m.read cur SingleNode.next) ≠ none)
    fun _ cur => m.read cur SingleNode.next

/-- `list_append`: `*list` and the new element; the allocator hands out the address `a`, whose cell
still holds `junk`. -/
def listAppend (fuel : ℕ) (list : Ptr) (val : ℤ) (a : ℕ) (junk : Node) (m : Mem Node) :
    Option (Ptr × Ptr × Mem Node) := do
  let m ← m.malloc a junk
  let newElement : Ptr := some a
  let m ← m.modify newElement (SingleNode.setData val)
  let m ← m.modify newElement (SingleNode.setNext none)
  if list = none then return (newElement, newElement, m)
  let cur ← lastItem m fuel list
  let m ← m.modify cur (SingleNode.setNext newElement)
  return (list, newElement, m)

/-- `while(cur->next != target) { cur = cur->next; if(cur == NULL) return 1; }`: the node in front
of `target`, and `NULL` for the `return`. -/
def findPrevious (m : Mem Node) (target : Ptr) : ℕ → Ptr → Option Ptr :=
  loop fun _ cur => do
    if (← m.read cur SingleNode.next) ≠ target then
      let cur ← m.read cur SingleNode.next
      if cur = none then return .stop none
      return .next cur
    else return .stop cur

/-- The assignments of `list_swap` to the nodes. -/
def swapLinks (m : Mem Node) (aPrevious bPrevious a b : Ptr) : Option (Mem Node) := do
  let m ← m.modify aPrevious (SingleNode.setNext b)
  let m ← m.modify bPrevious (SingleNode.setNext a)
  let tmp ← m.read a SingleNode.next
  let m ← m.modify a (SingleNode.setNext (← m.read b SingleNode.next))
  m.modify b (SingleNode.setNext tmp)

/-- `list_swap`: what it returns, if it does return a value, and `*head`; `d` is the address of
`new_head`.  A failing `assert` is a fault. -/
def listSwap (fuel d : ℕ) (junk : Node) (m : Mem Node) (head a b : Ptr) :
    Option (Option ℤ × Ptr × Mem Node) := do
  guard (a ≠ none)
  guard (b ≠ none)
  guard (a ≠ b)
  let m ← m.malloc d junk
  let newHead : Ptr := some d
  let m ← m.modify newHead (SingleNode.setNext head)
  let aPrevious ← findPrevious m a fuel newHead
  if aPrevious = none then return (some 1, head, ← m.free newHead)
  let bPrevious ← findPrevious m b fuel aPrevious
  if bPrevious = none then return (some 1, head, ← m.free newHead)
  let m ← swapLinks m aPrevious bPrevious a b
  let head ← m.read newHead SingleNode.next
  return (none, head, ← m.free newHead)

variable {a b d : ℕ} {h x y : ℤ} {m : Mem Node} {q : Ptr} {us vs xs ys zs L : List (ℕ × ℤ)}

/-! ### Appending -/

lemma lastItem_ends (hchain : m.Chain (some a) ((a, x) :: L)) :
    Ends (fun fuel => lastItem m fuel (some a)) (· = lastOf (some a) L) := by
  induction L generalizing a x with
  | nil =>
      have ha : m a = some ⟨x, none⟩ := hchain.head
      exact Ends.whileLoop_false (by simp [Mem.read_eq ha]) rfl
  | cons c L ih =>
      obtain ⟨c, z⟩ := c
      have ha : m a = some ⟨x, some c⟩ := hchain.head
      have htail : m.Chain (some c) ((c, z) :: L) := hchain.tail
      exact Ends.whileLoop_true (by simp [Mem.read_eq ha])
        (.of_eq (fun _ => Mem.read_eq ha _) (ih htail))

/-- `list_append` puts a new node behind the others. -/
lemma listAppend_spec {list : Ptr} (hchain : m.Chain list L) (ha : m a = none) (val : ℤ)
    (junk : Node) :
    Ends (fun fuel => listAppend fuel list val a junk m) fun (list', new, m') =>
      new = some a ∧ m'.Chain list' (L ++ [(a, val)])
        ∧ ∀ c ∉ a :: L.map Prod.fst, m' c = m c := by
  obtain ⟨m₁, hm₁⟩ : ∃ m₁ : Mem Node, Function.update m a (some ⟨val, none⟩) = m₁ := ⟨_, rfl⟩
  have ha₁ : m₁ a = some ⟨val, none⟩ := by rw [← hm₁, Function.update_self]
  have hrest₁ : ∀ c, c ≠ a → m₁ c = m c := fun c hc => by rw [← hm₁, Function.update_of_ne hc]
  have hnew : a ∉ L.map Prod.fst := hchain.not_mem ha
  have hchain₁ : m₁.Chain list L :=
    hchain.frame fun c hc => hrest₁ c (ne_of_mem_of_not_mem hc hnew)
  simp only [listAppend, Mem.malloc_eq ha, Mem.modify_update, SingleNode.setData,
    SingleNode.setNext, hm₁, Option.bind_eq_bind, Option.bind_some]
  obtain rfl := hchain.first
  cases L with
  | nil =>
      refine .of_eq (r := (some a, some a, m₁)) (fun _ => rfl) ⟨rfl, ⟨rfl, by simpa using ha₁⟩, ?_⟩
      exact fun c hc => hrest₁ c (by simpa using hc)
  | cons c L =>
      obtain ⟨c, z⟩ := c
      rw [firstOf_cons]
      refine Ends.bind (lastItem_ends hchain₁) fun p hp => ?_
      subst hp
      have hback : m₁.Chain (some a) [(a, val)] := ⟨rfl, by simpa using ha₁⟩
      have hnodup : (((c, z) :: L ++ [(a, val)]).map Prod.fst).Nodup :=
        nodup_insert _ (by simpa using hchain.nodup) (by simpa using hnew)
      obtain ⟨m₂, hlink, hnodes₂, hrest₂⟩ :=
        hchain₁.nodes.attach hback (List.cons_ne_nil _ _) hnodup none
      rw [lastOf_cons] at hlink
      refine .of_eq (r := (some c, some a, m₂)) (fun _ => by simp [hlink])
        ⟨rfl, ⟨rfl, hnodes₂⟩, fun e he => ?_⟩
      rw [List.mem_cons, not_or] at he
      exact (hrest₂ e he.2).trans (hrest₁ e he.1)

/-! ### The searches -/

/-- The search ends at the node in front of the one it looks for. -/
lemma findPrevious_of_mem (hnodes : m.Holds (links ((d, h) :: us ++ (a, x) :: vs) q))
    (hnot : a ∉ us.map Prod.fst) :
    Ends (fun fuel => findPrevious m (some a) fuel (some d)) (· = lastOf (some d) us) := by
  induction us generalizing d h with
  | nil =>
      have hd : m d = some ⟨h, some a⟩ := hnodes.head
      exact Ends.loop_step (.of_eq (r := .stop (some d)) (fun _ => by simp [Mem.read_eq hd]) rfl)
  | cons c us ih =>
      obtain ⟨c, z⟩ := c
      have hd : m d = some ⟨h, some c⟩ := hnodes.head
      rw [List.map_cons, List.mem_cons, not_or] at hnot
      have htail : m.Holds (links ((c, z) :: us ++ (a, x) :: vs) q) := (Mem.holds_cons.mp hnodes).2
      refine Ends.loop_step (.of_eq (r := .next (some c)) (fun _ => ?_) (ih htail hnot.2))
      simp [Mem.read_eq hd, Ne.symm hnot.1]

/-- A node that does not come any more is not found. -/
lemma findPrevious_of_notMem (hnodes : m.Holds (links ((d, h) :: us) none))
    (hnot : a ∉ us.map Prod.fst) :
    Ends (fun fuel => findPrevious m (some a) fuel (some d)) (· = none) := by
  induction us generalizing d h with
  | nil =>
      have hd : m d = some ⟨h, none⟩ := hnodes.head
      exact Ends.loop_step (.of_eq (r := .stop none) (fun _ => by simp [Mem.read_eq hd]) rfl)
  | cons c us ih =>
      obtain ⟨c, z⟩ := c
      have hd : m d = some ⟨h, some c⟩ := hnodes.head
      rw [List.map_cons, List.mem_cons, not_or] at hnot
      have htail : m.Holds (links ((c, z) :: us) none) := (Mem.holds_cons.mp hnodes).2
      refine Ends.loop_step (.of_eq (r := .next (some c)) (fun _ => ?_) (ih htail hnot.2))
      simp [Mem.read_eq hd, Ne.symm hnot.1]

/-! ### The assignments -/

/-- **The assignments exchange the two nodes**, next to each other or not. -/
lemma swapLinks_spec (hnodes : m.Holds (links (us ++ (a, x) :: ys ++ (b, y) :: zs) none))
    (hne : us ≠ []) :
    ∃ m', swapLinks m (lastOf none us) (lastOf (some a) ys) (some a) (some b) = some m'
      ∧ m'.Holds (links (us ++ (b, y) :: ys ++ (a, x) :: zs) none)
      ∧ ∀ c ∉ (us ++ (a, x) :: ys ++ (b, y) :: zs).map Prod.fst, m' c = m c := by
  have hnodup := hnodes.nodup
  rw [List.map_append, List.map_append, List.nodup_append', List.nodup_append'] at hnodup
  obtain ⟨⟨hus_nodup, hays_nodup, hus_ays⟩, hbzs_nodup, hfront⟩ := hnodup
  rw [List.disjoint_append_left] at hfront
  obtain ⟨hus_bzs, hays_bzs⟩ := hfront
  have hb_mem : b ∈ ((b, y) :: zs).map Prod.fst := List.mem_cons_self
  have ha_mem : a ∈ ((a, x) :: ys).map Prod.fst := List.mem_cons_self
  have hba : b ≠ a := fun heq => hays_bzs ha_mem (heq ▸ hb_mem)
  rw [links_append, links_append, Mem.holds_append, Mem.holds_append, firstOf_cons, firstOf_cons,
    links_cons (a := b), Mem.holds_cons] at hnodes
  obtain ⟨⟨hus, hays⟩, hb, hzs⟩ := hnodes
  -- the nodes in front of `a` lead to `b`, and the nodes in front of `b` to `a`
  obtain ⟨m₁, hwrite₁, hus₁, hrest₁⟩ := hus.linkLast (p := none) hus_nodup hne (some b)
  have hays₁ : m₁.Holds (links ((a, x) :: ys) (some b)) :=
    hays.frame fun c hc => hrest₁ c fun hmem => hus_ays hmem (map_fst_links ▸ hc)
  obtain ⟨m₂, hwrite₂, hays₂, hrest₂⟩ :=
    hays₁.linkLast (p := none) hays_nodup (List.cons_ne_nil _ _) (some a)
  rw [links_cons, Mem.holds_cons] at hays₂
  have hb₂ : m₂ b = some ⟨y, firstOf none zs⟩ := by
    rw [hrest₂ b fun hmem => hays_bzs hmem hb_mem, hrest₁ b fun hmem => hus_bzs hmem hb_mem, hb]
  -- `a` and `b` exchange what follows them
  obtain ⟨m₃, hwrite₃, ha₃, hrest₃⟩ :=
    Mem.modify_spec hays₂.1 (SingleNode.setNext (firstOf none zs))
  have hb₃ : m₃ b = some ⟨y, firstOf none zs⟩ := by rw [hrest₃ b hba, hb₂]
  obtain ⟨m₄, hwrite₄, hb₄, hrest₄⟩ :=
    Mem.modify_spec hb₃ (SingleNode.setNext (firstOf (some a) ys))
  have hrest : ∀ c, c ≠ a → c ≠ b → m₄ c = m₂ c := fun c ha hb => by rw [hrest₄ c hb, hrest₃ c ha]
  refine ⟨m₄, ?_, ?_, fun c hc => ?_⟩
  · rw [lastOf_cons] at hwrite₂
    rw [swapLinks, hwrite₁]
    simp only [Option.bind_eq_bind, Option.bind_some, hwrite₂, Mem.read_eq hays₂.1, Mem.read_eq hb₂,
      hwrite₃, hwrite₄]
  · rw [links_append, links_append, Mem.holds_append, Mem.holds_append, links_cons, links_cons,
      Mem.holds_cons, Mem.holds_cons]
    have hus₄ : m₄.Holds (links us (some b)) := hus₁.frame fun c hc => by
      rw [map_fst_links] at hc
      rw [hrest c (fun heq => hus_ays hc (heq ▸ ha_mem)) (fun heq => hus_bzs hc (heq ▸ hb_mem)),
        hrest₂ c (hus_ays hc)]
    have hys₄ : m₄.Holds (links ys (some a)) := hays₂.2.frame fun c hc => by
      rw [map_fst_links] at hc
      exact hrest c (ne_of_mem_of_not_mem hc (List.nodup_cons.mp hays_nodup).1)
        fun heq => hays_bzs (List.mem_cons_of_mem _ (heq ▸ hc)) hb_mem
    have ha₄ : m₄ a = some ⟨x, firstOf none zs⟩ := by
      rw [hrest₄ a hba.symm, ha₃, SingleNode.setNext]
    have hzs₄ : m₄.Holds (links zs none) := hzs.frame fun c hc => by
      rw [map_fst_links] at hc
      have hmem : c ∈ ((b, y) :: zs).map Prod.fst := List.mem_cons_of_mem _ hc
      rw [hrest c (fun heq => hays_bzs ha_mem (heq ▸ hmem))
          (ne_of_mem_of_not_mem hc (List.nodup_cons.mp hbzs_nodup).1),
        hrest₂ c fun hmem' => hays_bzs hmem' hmem, hrest₁ c fun hmem' => hus_bzs hmem' hmem]
    exact ⟨⟨hus₄, hb₄, hys₄⟩, ha₄, hzs₄⟩
  · rw [List.map_append, List.map_append, List.mem_append, List.mem_append, not_or, not_or] at hc
    obtain ⟨⟨hus_c, hays_c⟩, hbzs_c⟩ := hc
    rw [hrest c (fun heq => hays_c (heq ▸ ha_mem)) (fun heq => hbzs_c (heq ▸ hb_mem)),
      hrest₂ c hays_c, hrest₁ c hus_c]

/-! ### The calls -/

/-- The dummy node in front of a list; it is gone when the call returns. -/
lemma newHead_spec {head : Ptr} (hchain : m.Chain head L) (hd : m d = none) (junk : Node) :
    ∃ m₀ m₁, m.malloc d junk = some m₀ ∧ m₀.modify (some d) (SingleNode.setNext head) = some m₁
      ∧ m₁.Holds (links ((d, junk.data) :: L) none) ∧ m₁.free (some d) = some m
      ∧ ∀ c, c ≠ d → m₁ c = m c := by
  refine ⟨_, _, Mem.malloc_eq hd junk, Mem.modify_update _ _ _ _, ?_, ?_,
    fun c hc => Function.update_of_ne hc _ _⟩
  · rw [links_cons, Mem.holds_cons, Function.update_self, ← hchain.first]
    exact ⟨rfl, hchain.nodes.update (hchain.nodes.not_mem hd)⟩
  · rw [Mem.free_eq (Function.update_self _ _ _), Function.update_idem, ← hd,
      Function.update_eq_self]

/-- `L'` is `L` with the node `a` and the node `b`, which is behind it, exchanged. -/
def Exchanged (a b : ℕ) (L L' : List (ℕ × ℤ)) : Prop :=
  ∃ xs x ys y zs, L = xs ++ (a, x) :: ys ++ (b, y) :: zs
    ∧ L' = xs ++ (b, y) :: ys ++ (a, x) :: zs

/-- The calls that do not find the two nodes in their order. -/
lemma listSwap_fails {head : Ptr} (hchain : m.Chain head L) (hd : m d = none) (hab : a ≠ b)
    (horder : ∀ L', ¬ Exchanged a b L L') (junk : Node) :
    Ends (fun fuel => listSwap fuel d junk m head (some a) (some b)) (· = (some 1, head, m)) := by
  obtain ⟨m₀, m₁, hmalloc, hlink, hnodes, hfree, -⟩ := newHead_spec hchain hd junk
  simp only [listSwap, guard, reduceCtorEq, ne_eq, not_false_eq_true, if_true, Option.some_inj, hab,
    hmalloc, hlink, Option.bind_eq_bind, Option.pure_def, Option.bind_some]
  by_cases ha : a ∈ L.map Prod.fst
  · obtain ⟨⟨a, x⟩, hmem, rfl⟩ := List.mem_map.mp ha
    obtain ⟨xs, ys, rfl⟩ := List.append_of_mem hmem
    have hfront : a ∉ xs.map Prod.fst := fun hmem => by
      have hnodup := hchain.nodup
      rw [List.map_append, List.nodup_append'] at hnodup
      exact hnodup.2.2 hmem List.mem_cons_self
    have hb : b ∉ ((a, x) :: ys).map Prod.fst := fun hmem => by
      have htail : b ∈ ys.map Prod.fst := (List.mem_cons.mp hmem).resolve_left hab.symm
      obtain ⟨⟨b, y⟩, hmem', rfl⟩ := List.mem_map.mp htail
      obtain ⟨ys, zs, rfl⟩ := List.append_of_mem hmem'
      exact horder _ ⟨xs, x, ys, y, zs, by simp, rfl⟩
    refine Ends.bind (findPrevious_of_mem hnodes hfront) fun p hp => ?_
    obtain ⟨p', h', hlast, hrest⟩ := hnodes.drop_links
    obtain rfl : p = some p' := hp.trans hlast
    refine Ends.bind (findPrevious_of_notMem hrest hb) fun p hp => ?_
    subst hp
    exact .of_eq (fun _ => by simp [hfree]) rfl
  · refine Ends.bind (findPrevious_of_notMem hnodes ha) fun p hp => ?_
    subst hp
    exact .of_eq (fun _ => by simp [hfree]) rfl

/-- **A call exchanges a node and one behind it.** -/
lemma listSwap_spec {head : Ptr} (hchain : m.Chain head (xs ++ (a, x) :: ys ++ (b, y) :: zs))
    (hd : m d = none) (junk : Node) :
    Ends (fun fuel => listSwap fuel d junk m head (some a) (some b)) fun (ret, head', m') =>
      ret = none ∧ m'.Chain head' (xs ++ (b, y) :: ys ++ (a, x) :: zs)
        ∧ ∀ c ∉ (xs ++ (a, x) :: ys ++ (b, y) :: zs).map Prod.fst, m' c = m c := by
  obtain ⟨m₀, m₁, hmalloc, hlink, hnodes, -, hrest₁⟩ := newHead_spec hchain hd junk
  have hnodup := hchain.nodup
  rw [List.map_append, List.map_append, List.nodup_append', List.nodup_append',
    List.disjoint_append_left] at hnodup
  obtain ⟨⟨-, -, hfront⟩, -, -, hbehind⟩ := hnodup
  have ha : a ∉ xs.map Prod.fst := fun hmem => hfront hmem List.mem_cons_self
  have hb : b ∉ ((a, x) :: ys).map Prod.fst := fun hmem => hbehind hmem List.mem_cons_self
  have hab : a ≠ b := fun heq => hb (heq ▸ List.mem_cons_self)
  simp only [listSwap, guard, reduceCtorEq, ne_eq, not_false_eq_true, if_true, Option.some_inj, hab,
    hmalloc, hlink, Option.bind_eq_bind, Option.pure_def, Option.bind_some]
  -- neither search fails
  have hsearch :
      m₁.Holds (links ((d, junk.data) :: xs ++ (a, x) :: (ys ++ (b, y) :: zs)) none) := by
    rwa [List.append_assoc] at hnodes
  refine Ends.bind (findPrevious_of_mem hsearch ha) fun p hp => ?_
  obtain ⟨p', h', hlast, htail⟩ := hsearch.drop_links
  obtain rfl : p = some p' := hp.trans hlast
  have htail' : m₁.Holds (links ((p', h') :: ((a, x) :: ys) ++ (b, y) :: zs) none) := htail
  refine Ends.bind (findPrevious_of_mem htail' hb) fun q hq => ?_
  obtain ⟨q', y', hlast', -⟩ := Mem.Holds.drop_links (Mem.holds_cons.mp htail).2
  obtain rfl : q = some q' := hq.trans hlast'
  -- the assignments
  have hnodes' : m₁.Holds (links ((d, junk.data) :: xs ++ (a, x) :: ys ++ (b, y) :: zs) none) :=
    hnodes
  obtain ⟨m₂, hswap, hnodes₂, hrest₂⟩ := swapLinks_spec hnodes' (List.cons_ne_nil _ _)
  rw [lastOf_cons, hlast, hlast'] at hswap
  have hd₂ : m₂ d = some ⟨junk.data, firstOf none (xs ++ (b, y) :: ys ++ (a, x) :: zs)⟩ :=
    hnodes₂.head
  have hd_new : d ∉ (xs ++ (b, y) :: ys ++ (a, x) :: zs).map Prod.fst :=
    (List.nodup_cons.mp hnodes₂.nodup).1
  refine .of_eq (r := (none, firstOf none (xs ++ (b, y) :: ys ++ (a, x) :: zs),
    Function.update m₂ d none)) (fun _ => ?_) ⟨rfl, ⟨rfl, ?_⟩, ?_⟩
  · simp only [reduceCtorEq, if_false, hswap, Mem.read_eq hd₂, Mem.free_eq hd₂, Option.bind_some]
  · exact Mem.Holds.update (Mem.holds_cons.mp hnodes₂).2 (by rwa [map_fst_links])
  · intro c hc
    dsimp only
    rcases eq_or_ne c d with rfl | hcd
    · rw [Function.update_self, hd]
    · rw [Function.update_of_ne hcd, hrest₂ c fun hmem => ?_, hrest₁ c hcd]
      exact hc ((List.mem_cons.mp hmem).resolve_left hcd)

/-- **`list_swap` exchanges two nodes or changes nothing.**  When `b` is somewhere behind `a`, the
call leaves the list with the two exchanged; otherwise it returns 1 and the memory is as it was. -/
theorem listSwap_exchanges {head : Ptr} (hchain : m.Chain head L) (hd : m d = none) (hab : a ≠ b)
    (junk : Node) :
    Ends (fun fuel => listSwap fuel d junk m head (some a) (some b)) fun (ret, head', m') =>
      (∀ L', Exchanged a b L L' →
        ret = none ∧ m'.Chain head' L' ∧ ∀ c ∉ L.map Prod.fst, m' c = m c)
      ∧ ((∀ L', ¬ Exchanged a b L L') → ret = some 1 ∧ head' = head ∧ m' = m) := by
  by_cases horder : ∃ L', Exchanged a b L L'
  · obtain ⟨L', hL'⟩ := horder
    obtain ⟨xs, x, ys, y, zs, hL, -⟩ := id hL'
    obtain ⟨r, hret, -⟩ := listSwap_spec (hL ▸ hchain) hd junk
    refine ⟨r, hret, fun L'' hL'' => ?_, fun hnone => absurd hL' (hnone L')⟩
    obtain ⟨xs, x, ys, y, zs, hL, rfl⟩ := hL''
    rw [hL] at hchain ⊢
    exact (listSwap_spec hchain hd junk).of_returns hret
  · rw [not_exists] at horder
    refine (listSwap_fails hchain hd hab horder junk).mono ?_
    rintro r rfl
    exact ⟨fun L' hL' => absurd hL' (horder L'), fun _ => ⟨rfl, rfl, rfl⟩⟩

/-- The call that `main` of the swap program makes. -/
theorem listSwap_exchanges_six :
    Ends (fun fuel => listSwap fuel 7 ⟨0, none⟩
        (Mem.ofCells (links [(1, 8), (2, 9), (3, 1), (4, 4), (5, 2), (6, 5)] none))
        (some 1) (some 1) (some 6)) fun (ret, head, m) =>
      ret = none ∧ m.Chain head [(6, 5), (2, 9), (3, 1), (4, 4), (5, 2), (1, 8)] := by
  refine (listSwap_exchanges (.ofCells (by decide)) rfl (by decide) ⟨0, none⟩).mono fun r hr => ?_
  obtain ⟨hret, hresult, -⟩ :=
    hr.1 _ ⟨[], 8, [(2, 9), (3, 1), (4, 4), (5, 2)], 5, [], rfl, rfl⟩
  exact ⟨hret, hresult⟩

end Wgs.NodeList
