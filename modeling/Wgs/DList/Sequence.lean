import Wgs.DList.Program

/-!
The doubly linked list is a sequence.

`DListCall.apply` says what a call makes of the sequence of data nodes, and `DListCall.result` what
it returns.  A list is well formed (`WellFormed`) if its four views agree: the nodes followed
forwards and backwards, the last node and the number of data nodes.  In the memory that is one
chain, of the head node and the data nodes (`Threaded`); the lists that runs of calls lead to are
`Linked`.
-/

namespace Wgs

open Foundation

/-! ### The sequence -/

/-- The sequence with the entry `c` put in front of the node `p`. -/
def putBefore (p : ℕ) (c : ℕ × ℤ) : List (ℕ × ℤ) → List (ℕ × ℤ)
  | [] => []
  | d :: L => if d.1 = p then c :: d :: L else d :: putBefore p c L

namespace DListCall

/-- What a call makes of the sequence of data nodes. -/
def apply (L : List (ℕ × ℤ)) : DListCall → List (ℕ × ℤ)
  | insFirst i a _ => (a, i) :: L
  | insBefore p i a _ => putBefore p (a, i) L
  | remove => L.dropLast
  | locatePos _ => L

/-- The node a call returns. -/
def result (L : List (ℕ × ℤ)) : DListCall → Ptr
  | insFirst _ a _ => some a
  | insBefore _ _ a _ => some a
  | remove => L.getLast?.map Prod.fst
  | locatePos i => if 1 ≤ i then L[(i - 1).toNat]?.map Prod.fst else none

/-- A call on a sequence: `InsBefore` is given a data node of it. -/
def Proper (L : List (ℕ × ℤ)) : DListCall → Prop
  | insBefore p _ _ _ => p ∈ L.map Prod.fst
  | _ => True

/-- A call that keeps `size` and the counter of `LocatePos` within an `int`. -/
def Fits (L : List (ℕ × ℤ)) : DListCall → Prop
  | insFirst _ _ _ => L.length < 2147483647
  | insBefore _ _ _ _ => L.length < 2147483647
  | remove => True
  | locatePos i => i < 2147483647 ∨ L.length < 2147483647

/-- The address the allocator answers with is not in use. -/
def Fresh (m : Mem Node) : DListCall → Prop
  | insFirst _ a _ => m a = none
  | insBefore _ _ a _ => m a = none
  | _ => True

end DListCall

/-- The sequence that calls leave, from the empty one on. -/
def sequence (cs : List DListCall) : List (ℕ × ℤ) := cs.foldl DListCall.apply []

/-- `P` holds of every call of the list and the sequence it finds. -/
def AllAlong (P : List (ℕ × ℤ) → DListCall → Prop) (cs : List DListCall) : Prop :=
  ∀ cs' c, cs' ++ [c] <+: cs → P (sequence cs') c

/-- **A well-formed list** with the head node `h`, representing the sequence `L`. -/
structure WellFormed (h : ℕ) (s : DListState) (L : List (ℕ × ℤ)) : Prop where
  head : s.list.head = some h
  forwards : Follows LinkNode.next s.mem s.list.head (h :: L.map Prod.fst)
  backwards : Follows LinkNode.previous s.mem s.list.tail (h :: L.map Prod.fst).reverse
  tail : s.list.tail = (h :: L.map Prod.fst).getLast?
  tail_next : s.mem.read s.list.tail LinkNode.next = some none
  size : s.list.size = L.length
  items : ∀ c ∈ L, ∃ n, s.mem c.1 = some n ∧ n.data = c.2
  distinct : (h :: L.map Prod.fst).Nodup

/-! ### The chain of nodes -/

/-- The memory holds the head node, with the item `x`, and the data nodes as one chain; `tail` names
its last node and `size` counts the data nodes. -/
structure Threaded (h : ℕ) (x : ℤ) (s : DListState) (L : List (ℕ × ℤ)) : Prop where
  head : s.list.head = some h
  holds : s.mem.Holds (chain none ((h, x) :: L) none)
  tail : s.list.tail = lastOf (some h) L
  size : s.list.size = L.length
  distinct : (((h, x) :: L).map Prod.fst).Nodup

/-- The memory holds the head node and the data nodes as one chain, `tail` names its last node and
`size` counts the data nodes, of which there are no more than an `int` counts. -/
structure Linked (h : ℕ) (s : DListState) (L : List (ℕ × ℤ)) : Prop where
  head : s.list.head = some h
  holds : s.mem.Holds (chain none ((h, 0) :: L) none)
  tail : s.list.tail = lastOf (some h) L
  size : s.list.size = L.length
  bounded : L.length ≤ 2147483647
  distinct : (((h, 0) :: L).map Prod.fst).Nodup

variable {h : ℕ} {x : ℤ} {s : DListState} {L : List (ℕ × ℤ)}

/-- **A chain is a well-formed list.** -/
lemma Threaded.wellFormed (hs : Threaded h x s L) : WellFormed h s L where
  head := hs.head
  forwards := hs.head ▸ follows_next hs.holds
  backwards := hs.tail ▸ follows_previous hs.holds
  tail := hs.tail.trans (lastOf_eq_getLast? h L)
  tail_next := by
    obtain ⟨a, ha⟩ : ∃ a, (h :: L.map Prod.fst)[L.length]? = some a :=
      ⟨_, List.getElem?_eq_getElem (by simp)⟩
    have hlast : s.list.tail = some a := by
      rw [hs.tail, lastOf_eq_getLast?, List.getLast?_eq_getElem?, ← ha]
      simp
    rw [hlast, read_next hs.holds ha]
    simp
  size := hs.size
  items := fun c hc => data_of_mem_chain hs.holds c (List.mem_cons_of_mem _ hc)
  distinct := hs.distinct

/-- **A well-formed list is a chain**: the links forwards and backwards are those of its nodes. -/
lemma WellFormed.threaded (hs : WellFormed h s L) : ∃ x, Threaded h x s L := by
  have hforwards : Follows LinkNode.next s.mem (some h) (h :: L.map Prod.fst) :=
    hs.head ▸ hs.forwards
  obtain ⟨n, hn, -⟩ := hforwards.2
  have hdata : ∀ c ∈ (h, n.data) :: L, ∃ n, s.mem c.1 = some n ∧ n.data = c.2 := by
    intro c hc
    rcases List.mem_cons.mp hc with rfl | hc
    · exact ⟨n, hn, rfl⟩
    · exact hs.items c hc
  have hprevious : Follows LinkNode.previous s.mem s.list.tail
      ((((h, n.data) :: L).map Prod.fst).reverse ++ []) := by
    rw [List.append_nil]
    exact hs.backwards
  refine ⟨n.data, hs.head, ?_, ?_, hs.size, hs.distinct⟩
  · exact holds_chain_of_follows hforwards hprevious hdata
  · rw [hs.tail, lastOf_eq_getLast?]

lemma Linked.threaded (hs : Linked h s L) : Threaded h 0 s L :=
  ⟨hs.head, hs.holds, hs.tail, hs.size, hs.distinct⟩

lemma Linked.wellFormed (hs : Linked h s L) : WellFormed h s L := hs.threaded.wellFormed

/-- `IsEmpty` tells the empty list. -/
lemma Threaded.isEmpty_iff (hs : Threaded h x s L) : isEmpty s.list = true ↔ L = [] := by
  rw [isEmpty, decide_eq_true_iff, hs.size, hs.tail, hs.head]
  constructor
  · rintro ⟨hsize, -⟩
    exact List.length_eq_zero_iff.mp (by exact_mod_cast hsize)
  · rintro rfl
    exact ⟨rfl, rfl⟩

lemma Linked.isEmpty_iff (hs : Linked h s L) : isEmpty s.list = true ↔ L = [] :=
  hs.threaded.isEmpty_iff

end Wgs
